import PageDumper.MainRun

/-! What `fill_toast_map` records for any toast file of sane pages, also one in which several tuples
have the same id and sequence number: after an update the dead tuples of a value stay in their
slots, and the last tuple in file order is the one that counts. -/
namespace PageDumper
open Memory Words Reader RowTable

section Filling

variable (f : File UInt8) (buffer : ℕ → UInt8) (slot : ℕ × ℕ)

def SlotColumns : Prop :=
  ThreeColumns (pageBuffer f buffer slot.1) (pdLinp (pageOf f slot.1) slot.2)

instance : Decidable (SlotColumns f buffer slot) :=
  inferInstanceAs (Decidable (ThreeColumns _ _))

def slotSeq : UInt32 := chunkSeq (pageBuffer f buffer slot.1) (pdLinp (pageOf f slot.1) slot.2)

def slotRecord : UInt32 × ℕ × ChunkPos :=
  (chunkId (pageBuffer f buffer slot.1) (pdLinp (pageOf f slot.1) slot.2),(slotSeq f buffer slot).toNat,
    chunkRange (pageBuffer f buffer slot.1) (UInt32.ofNat slot.1) (pdLinp (pageOf f slot.1) slot.2))

def fillSlot (positions : Positions) (slot : ℕ × ℕ) : Except Stop Positions :=
  fillItem (pageBuffer f buffer slot.1) (UInt32.ofNat slot.1) positions slot.2

end Filling

variable {f : File UInt8} {buffer : ℕ → UInt8}

theorem fillSlot_ok_iff (h : SaneFile f) {positions positions' : Positions} (hr : ReachedMap positions)
    {slot : ℕ × ℕ} (hs : slot ∈ slots f) : fillSlot f buffer positions slot = .ok positions' ↔
      (SlotColumns f buffer slot ∧ (slotSeq f buffer slot).toNat < 2^32-1) ∧
        positions' = put positions (slotRecord f buffer slot).1 (slotRecord f buffer slot).2.1
          (slotRecord f buffer slot).2.2 := by
  obtain ⟨hk,hi,hadm⟩ := mem_slots.mp hs
  have hlinp := (samePage_pageBuffer f buffer slot.1).pdLinp (h.sane _ hk) hi
  rw [hlinp] at hadm
  rw [fillSlot,fillItem_of_admitted hadm,SlotColumns,slotSeq,slotRecord,slotSeq,hlinp]
  by_cases hcols : ThreeColumns (pageBuffer f buffer slot.1) (pdLinp (pageBuffer f buffer slot.1) slot.2)
  · rw [if_pos hcols]
    constructor
    · intro hok
      obtain ⟨hput,hseq⟩ := recordChunk_ok hok
      refine ⟨⟨hcols,?_⟩,hput⟩
      rcases hseq with hseq | hseq
      · exact hseq
      · -- no row is long enough to hold the last sequence number
        refine Nat.lt_of_lt_of_le hseq ?_
        cases hrow : positions (chunkId (pageBuffer f buffer slot.1)
            (pdLinp (pageBuffer f buffer slot.1) slot.2)) with
        | none => exact Nat.zero_le _
        | some row => exact hr.length_le _ row hrow
    · rintro ⟨⟨-,hseq⟩,rfl⟩
      exact recordChunk_eq _ _ _ hseq
  · rw [if_neg hcols]
    exact iff_of_false (fun hc => by cases hc) fun hc => hcols hc.1.1

theorem foldlM_fillSlot (h : SaneFile f) {ss : List (ℕ × ℕ)} (hss : ∀ slot ∈ ss, slot ∈ slots f)
    {positions positions' : Positions} (hr : ReachedMap positions) :
    ss.foldlM (fillSlot f buffer) positions = .ok positions' ↔
      (∀ slot ∈ ss, SlotColumns f buffer slot ∧ (slotSeq f buffer slot).toNat < 2^32-1) ∧
        positions' = (ss.map (slotRecord f buffer)).foldl (fun t r => put t r.1 r.2.1 r.2.2) positions := by
  induction ss generalizing positions with
  | nil =>
    rw [List.foldlM_nil]
    constructor
    · intro hok
      cases hok
      exact ⟨by simp,rfl⟩
    · rintro ⟨-,rfl⟩
      rfl
  | cons slot ss ih =>
    have hs := hss slot (by simp)
    have hiff : ∀ p, fillSlot f buffer positions slot = .ok p ↔ _ := fun p => fillSlot_ok_iff h hr hs
    rw [List.foldlM_cons,List.forall_mem_cons,List.map_cons,List.foldl_cons]
    cases hstep : fillSlot f buffer positions slot with
    | error e =>
      refine iff_of_false (fun hc => by cases hc) fun hc => ?_
      have hok := (hiff _).mpr ⟨hc.1.1,rfl⟩
      rw [hstep] at hok
      cases hok
    | ok p =>
      obtain ⟨hgood,rfl⟩ := (hiff p).mp hstep
      refine (ih (fun s hs => hss s (by simp [hs])) (hr.item hstep)).trans ?_
      simp only [hgood,true_and,and_self]

/-- On every toast file of sane pages the map is built if and only if each item has its three columns
and no sequence number is the largest of all. Then an id has a row if and only if an item has the
id; the row ends with the largest sequence number, and at each place it has the range of the last
item in file order with this id and sequence number, and `(0,0)` where there is none. -/
theorem fillToastMap_last (h : SaneFile f) (buffer : ℕ → UInt8) :
    ((∃ toast, fillToastMap buffer ⟨fun _ => none,.opened f⟩ = .ok toast) ↔
      ∀ slot ∈ slots f, SlotColumns f buffer slot ∧ (slotSeq f buffer slot).toNat < 2^32-1) ∧
    ∀ toast, fillToastMap buffer ⟨fun _ => none,.opened f⟩ = .ok toast → ∀ v,
      (toast.positions v = none ↔ ∀ slot ∈ slots f, (slotRecord f buffer slot).1 ≠ v) ∧
      ∀ datas, toast.positions v = some datas →
        FilledRow ((slots f).map (slotRecord f buffer)) v datas := by
  have hslots : (fillToastMap buffer ⟨fun _ => none,.opened f⟩).map ToastMap.positions =
      (slots f).foldlM (fillSlot f buffer) fun _ => none := by
    rw [fillToastMap_of_small h.aligned h.small]
    refine foldlM_pages (fun k hk s => forLinp_slots (h.sane k hk) buffer (fun s i hi => ?_) s) _
    cases hadm : (pdLinp (pageOf f k) i).admitted with
    | false => exact fillItem_of_not_admitted (by rw [hi]; exact hadm) _ _
    | true => rfl
  have hiff : ∀ p, (slots f).foldlM (fillSlot f buffer) (fun _ => none) = .ok p ↔ _ :=
    fun p => foldlM_fillSlot h (fun _ hs => hs) ReachedMap.empty
  cases hfill : fillToastMap buffer ⟨fun _ => none,.opened f⟩ with
  | error e =>
    rw [hfill] at hslots
    refine ⟨iff_of_false (by simp) fun hgood => ?_,fun toast hok => by cases hok⟩
    have hok := (hiff _).mpr ⟨hgood,rfl⟩
    rw [← hslots] at hok
    cases hok
  | ok toast =>
    rw [hfill] at hslots
    obtain ⟨hgood,hpositions⟩ := (hiff toast.positions).mp hslots.symm
    refine ⟨iff_of_true ⟨toast,rfl⟩ hgood,?_⟩
    rintro _ ⟨⟩ v
    have hfilled : toast.positions = fill ((slots f).map (slotRecord f buffer)) := hpositions
    rw [hfilled,fill_eq_none_iff,List.forall_mem_map]
    exact ⟨Iff.rfl,fun datas => filledRow_fill⟩

theorem fillToastMap_last_shuffled :
    ∃ toast, fillToastMap (fun _ => 0) ⟨fun _ => none,.opened shuffledFile⟩ = .ok toast ∧
      toast.positions 6 = none ∧ ∃ datas, toast.positions 5 = some datas ∧
        FilledRow ((slots shuffledFile).map (slotRecord shuffledFile fun _ => 0)) 5 datas := by
  obtain ⟨hiff,hrows⟩ := fillToastMap_last (f := shuffledFile) shuffledImage.saneFile fun _ => 0
  obtain ⟨toast,hok⟩ := hiff.mpr (by decide)
  obtain ⟨hlost,-⟩ := hrows toast hok 6
  obtain ⟨hnone,hfilled⟩ := hrows toast hok 5
  refine ⟨toast,hok,hlost.mpr (by decide),?_⟩
  cases hrow : toast.positions 5 with
  | none => exact absurd rfl (hnone.mp hrow (0,0) (by decide))
  | some datas => exact ⟨datas,rfl,hfilled datas hrow⟩

end PageDumper
