import PageDumper.ToastMap

/-! What the body of the loop in `fill_toast_map` does to the map: for an admitted tuple one
entry is stored and every other entry stays, as long as the sequence number leaves room for
its successor. -/
namespace PageDumper
open Memory Words Reader RowTable

/-! ### The fields of a toast tuple -/

def chunkId (page : ℕ → UInt8) (itemid : ItemIdData) : UInt32 := (getItemData page itemid).getUnsigned 0

def chunkSeq (page : ℕ → UInt8) (itemid : ItemIdData) : UInt32 := (getItemData page itemid).getUnsigned 4

def chunkVarlena (page : ℕ → UInt8) (itemid : ItemIdData) : Varlena := (getItemData page itemid).getVarlena 8

def chunkRange (page : ℕ → UInt8) (pagePos : UInt32) (itemid : ItemIdData) : ChunkPos where
  first := UInt32.ofNat PAGE_SIZE*pagePos+UInt32.ofNat itemid.lpOff+
    (getItemHeader page itemid).tHoff.toUInt32+8+(chunkVarlena page itemid).dataOffset
  second := (chunkVarlena page itemid).size-(chunkVarlena page itemid).dataOffset

def ThreeColumns (page : ℕ → UInt8) (itemid : ItemIdData) : Prop :=
  (getItemHeader page itemid).hasAttribute 0 = true ∧ (getItemHeader page itemid).hasAttribute 1 = true ∧
    (getItemHeader page itemid).hasAttribute 2 = true

instance (page : ℕ → UInt8) (itemid : ItemIdData) : Decidable (ThreeColumns page itemid) :=
  inferInstanceAs (Decidable (_ ∧ _ ∧ _))

theorem fillItem_of_admitted {page : ℕ → UInt8} {i : ℕ} (hadm : (pdLinp page i).admitted = true)
    (pagePos : UInt32) (positions : Positions) : fillItem page pagePos positions i =
      if ThreeColumns page (pdLinp page i) then
        recordChunk positions (chunkId page (pdLinp page i)) (chunkSeq page (pdLinp page i))
          (chunkRange page pagePos (pdLinp page i))
      else .error .abort := by
  by_cases hcols : ThreeColumns page (pdLinp page i)
  · rw [if_pos hcols]
    obtain ⟨h₀,h₁,h₂⟩ := hcols
    have hp₁ : (0 : UInt32)+(getItemData page (pdLinp page i)).getUnsignedSize 0 = 4 := rfl
    have hp₂ : (4 : UInt32)+(getItemData page (pdLinp page i)).getUnsignedSize 4 = 8 := rfl
    simp only [fillItem,hadm,if_true,assertion,h₀,h₁,h₂,bind,Except.bind,hp₁,hp₂,chunkId,chunkSeq,
      chunkRange,chunkVarlena]
  · rw [if_neg hcols]
    cases h₀ : (getItemHeader page (pdLinp page i)).hasAttribute 0 with
    | false => simp [fillItem,hadm,assertion,h₀,bind,Except.bind]
    | true =>
      cases h₁ : (getItemHeader page (pdLinp page i)).hasAttribute 1 with
      | false => simp [fillItem,hadm,assertion,h₀,h₁,bind,Except.bind]
      | true =>
        have h₂ : (getItemHeader page (pdLinp page i)).hasAttribute 2 = false := by
          simpa [ThreeColumns,h₀,h₁] using hcols
        simp [fillItem,hadm,assertion,h₀,h₁,h₂,bind,Except.bind]

theorem fillItem_of_not_admitted {page : ℕ → UInt8} {i : ℕ} (h : (pdLinp page i).admitted = false)
    (pagePos : UInt32) (positions : Positions) :
    fillItem page pagePos positions i = .ok positions := by
  simp only [fillItem,h]
  rfl

theorem toNat_chunkRange_first (page : ℕ → UInt8) (pagePos : UInt32) (itemid : ItemIdData) :
    (chunkRange page pagePos itemid).first.toNat = (PAGE_SIZE*pagePos.toNat+itemid.lpOff+
      (getItemHeader page itemid).tHoff.toNat+8+(chunkVarlena page itemid).dataOffset.toNat) % 2^32 := by
  have h₈ : (8 : UInt32).toNat = 8 := rfl
  simp only [chunkRange,UInt32.toNat_add,UInt32.toNat_mul,UInt32.toNat_ofNat',UInt8.toNat_toUInt32,h₈]
  simp only [PAGE_SIZE]
  omega

/-! ### Storing an entry -/

theorem recordChunk_ok {positions positions' : Positions} {chunkId chunkSeq : UInt32} {c : ChunkPos}
    (h : recordChunk positions chunkId chunkSeq c = .ok positions') :
    positions' = put positions chunkId chunkSeq.toNat c ∧
      (chunkSeq.toNat < 2^32-1 ∨ chunkSeq.toNat < ((positions chunkId).getD []).length) := by
  rcases Nat.lt_or_ge chunkSeq.toNat (2^32-1) with hlt | hge
  · rw [recordChunk_eq positions chunkId c hlt] at h
    cases h
    exact ⟨rfl,.inl hlt⟩
  · have hlast : chunkSeq = 0xFFFFFFFF := by
      have := chunkSeq.toNat_lt
      exact UInt32.toNat_inj.mp (by rw [show (0xFFFFFFFF : UInt32).toNat = 2^32-1 from rfl]; omega)
    rcases Nat.lt_or_ge (2^32-1) ((positions chunkId).getD []).length with hlen | hlen
    · have hn : ¬ ((positions chunkId).getD []).length ≤ chunkSeq.toNat := by
        rw [hlast,show (0xFFFFFFFF : UInt32).toNat = 2^32-1 from rfl]
        omega
      simp only [recordChunk,if_neg hn] at h
      rw [if_pos (by omega)] at h
      cases h
      refine ⟨?_,.inr (by omega)⟩
      simp only [put,rowFor,if_neg hn]
    · rw [hlast,recordChunk_last positions chunkId c hlen] at h
      cases h

/-- The maps that `fill_toast_map` reaches: the empty one, and what the body of its loop makes
of one for any item of any page. -/
inductive ReachedMap : Positions → Prop
  | empty : ReachedMap fun _ => none
  | item {positions positions' : Positions} {page : ℕ → UInt8} {pagePos : UInt32} {i : ℕ} :
      ReachedMap positions → fillItem page pagePos positions i = .ok positions' → ReachedMap positions'

theorem ReachedMap.length_le {positions : Positions} (h : ReachedMap positions) :
    ∀ k row, positions k = some row → row.length ≤ 2^32-1 := by
  induction h with
  | empty => exact fun k row hrow => by cases hrow
  | @item positions positions' page pagePos i _ hitem ih =>
    cases hadm : (pdLinp page i).admitted with
    | false =>
      rw [fillItem_of_not_admitted hadm] at hitem
      cases hitem
      exact ih
    | true =>
      rw [fillItem_of_admitted hadm] at hitem
      split at hitem
      · obtain ⟨rfl,hseq⟩ := recordChunk_ok hitem
        intro k row hrow
        by_cases hk : k = chunkId page (pdLinp page i)
        · subst hk
          rw [put_self,Option.some.injEq] at hrow
          have hlen := length_rowFor positions (chunkId page (pdLinp page i))
            (chunkSeq page (pdLinp page i)).toNat
          rw [← hrow,List.length_set,hlen]
          cases hold : positions (chunkId page (pdLinp page i)) with
          | none =>
            simp only [hold,Option.getD_none,List.length_nil] at hseq ⊢
            omega
          | some old =>
            have := ih _ old hold
            simp only [hold,Option.getD_some] at hseq ⊢
            omega
        · rw [put_of_ne positions _ _ hk] at hrow
          exact ih k row hrow
      · cases hitem

theorem ReachedMap.page {page : ℕ → UInt8} {pagePos : UInt32} {positions positions' : Positions}
    (h : ReachedMap positions) (hok : forLinp page (fillItem page pagePos) positions = .ok positions') :
    ReachedMap positions' :=
  forLinp_preserves (fun _ _ _ hs hstep => hs.item hstep) h hok

theorem ReachedMap.pages {fuel : ℕ} {it it' : PageIterator} {buffer : ℕ → UInt8} {pagePos : UInt32}
    {positions positions' : Positions} (h : ReachedMap positions)
    (hok : fillPages fuel it buffer pagePos positions = .ok (positions',it')) : ReachedMap positions' := by
  induction fuel generalizing it buffer pagePos positions with
  | zero =>
    cases hok
    exact h
  | succ fuel ih =>
    rw [fillPages] at hok
    split at hok
    · cases hok
      exact h
    · simp only [bind,Except.bind] at hok
      split at hok
      · cases hok
      · rename_i positions₁ hloop
        exact ih (h.page hloop) hok

theorem fillToastMap_reached {buffer : ℕ → UInt8} {stream : Stream UInt8} {toast : ToastMap}
    (h : fillToastMap buffer ⟨fun _ => none,stream⟩ = .ok toast) : ReachedMap toast.positions := by
  simp only [fillToastMap,bind,Except.bind] at h
  split at h
  · cases h
  · split at h
    · cases h
    · rename_i hfill
      cases h
      exact ReachedMap.empty.pages hfill

/-- The item is recorded under its id and sequence number, with a store inside the vector, and
every other entry of the map is as before. -/
def RecordsOnly (positions : Positions) (page : ℕ → UInt8) (pagePos : UInt32) (i : ℕ) : Prop :=
  ∃ positions', fillItem page pagePos positions i = .ok positions' ∧
    entry positions' (chunkId page (pdLinp page i)) (chunkSeq page (pdLinp page i)).toNat =
      some (chunkRange page pagePos (pdLinp page i)) ∧
    ∀ k j c, entry positions k j = some c →
      k ≠ chunkId page (pdLinp page i) ∨ j ≠ (chunkSeq page (pdLinp page i)).toNat →
      entry positions' k j = some c

/-- At the last sequence number `chunk_seq+1` wraps, so the vector is emptied and the store is
out of range. -/
theorem not_recordsOnly_last {positions : Positions} (h : ReachedMap positions) {page : ℕ → UInt8} {i : ℕ}
    (hadm : (pdLinp page i).admitted = true) (hlast : chunkSeq page (pdLinp page i) = 0xFFFFFFFF)
    (pagePos : UInt32) : ¬ RecordsOnly positions page pagePos i := by
  rintro ⟨positions',hok,-⟩
  rw [fillItem_of_admitted hadm] at hok
  split at hok
  · rw [hlast,recordChunk_last] at hok
    · cases hok
    · cases hrow : positions (chunkId page (pdLinp page i)) with
      | none => simp
      | some row => exact h.length_le _ row hrow
  · cases hok

/-- From every map reached, an admitted tuple with its three columns is recorded and disturbs no
other entry, if and only if its sequence number is not the last 32-bit one. -/
theorem recordsOnly_iff {positions : Positions} (h : ReachedMap positions) {page : ℕ → UInt8} {i : ℕ}
    (hadm : (pdLinp page i).admitted = true) (hcols : ThreeColumns page (pdLinp page i))
    (pagePos : UInt32) :
    RecordsOnly positions page pagePos i ↔ chunkSeq page (pdLinp page i) ≠ 0xFFFFFFFF := by
  constructor
  · exact fun hrec hlast => not_recordsOnly_last h hadm hlast pagePos hrec
  · intro hne
    have hseq : (chunkSeq page (pdLinp page i)).toNat < 2^32-1 := by
      have hlt := (chunkSeq page (pdLinp page i)).toNat_lt
      have hne' : (chunkSeq page (pdLinp page i)).toNat ≠ 2^32-1 := fun he => hne (UInt32.toNat_inj.mp he)
      omega
    refine ⟨_,?_,entry_put_self _ _ _ _,fun k j c hc hkj => entry_put_of_ne hc hkj⟩
    rw [fillItem_of_admitted hadm,if_pos hcols]
    exact recordChunk_eq positions _ _ hseq

/-- A page with one tuple of chunk id 5; all four bytes of its sequence number are `b`. -/
def toastPage (b : UInt8) : ℕ → UInt8 := fun i =>
  if 8180 ≤ i ∧ i < 8184 then b
  else (([(12,28),(24,0xd8),(25,0x9f),(26,0x44),(8174,24),(8176,5),(8184,5),(8185,0x61)] :
    List (ℕ × UInt8)).lookup i).getD 0

def toastPageMap : Positions := put (fun _ => none) 5 0 ⟨8185,1⟩

theorem reachedMap_toastPageMap : ReachedMap toastPageMap := by
  have hitem : fillItem (toastPage 0) 0 (fun _ => none) 0 = .ok toastPageMap := rfl
  exact ReachedMap.empty.item hitem

theorem recordsOnly_toastPage : RecordsOnly toastPageMap (toastPage 1) 0 0 ↔
    chunkSeq (toastPage 1) (pdLinp (toastPage 1) 0) ≠ 0xFFFFFFFF :=
  recordsOnly_iff reachedMap_toastPageMap (by decide) (by decide) 0

theorem not_recordsOnly_toastPage : ReachedMap toastPageMap ∧ entry toastPageMap 5 0 = some ⟨8185,1⟩ ∧
    (pdLinp (toastPage 0xFF) 0).admitted = true ∧ ThreeColumns (toastPage 0xFF) (pdLinp (toastPage 0xFF) 0) ∧
    ¬ RecordsOnly toastPageMap (toastPage 0xFF) 0 0 :=
  ⟨reachedMap_toastPageMap,rfl,by decide,by decide,
    not_recordsOnly_last reachedMap_toastPageMap (by decide) (by decide) 0⟩

end PageDumper
