import PageDumper.PageScan
import PageDumper.Reassembly

/-! A whole run of `main` as one pass over the items of the file. On a file of sane pages below
4 GiB the two loops visit the slots that hold an item, page after page and in the order of the
line pointers, and the user code is called once for each of them. -/
namespace PageDumper
open Memory Words Reader

/-- A file that the program reads as what it is: whole pages, fewer than 4 GiB, and on each
page a sane line pointer array. -/
structure SaneFile (f : File UInt8) : Prop where
  aligned : PAGE_SIZE ∣ f.size
  small : f.size < 2^32
  sane : ∀ k < f.size/PAGE_SIZE, LowerSane (pageOf f k)

theorem ToastImage.saneFile (img : ToastImage) : SaneFile img.file := ⟨img.aligned,img.small,img.sane⟩

def pageSlots (f : File UInt8) (k : ℕ) : List (ℕ × ℕ) :=
  ((List.range (pageGetMaxOffsetNumber (pageOf f k))).filter
    fun i => (pdLinp (pageOf f k) i).admitted).map (Prod.mk k)

/-- The slots of the file that hold an item, as page and line pointer number. -/
def slots (f : File UInt8) : List (ℕ × ℕ) := (List.range (f.size/PAGE_SIZE)).flatMap (pageSlots f)

theorem mem_slots {f : File UInt8} {s : ℕ × ℕ} : s ∈ slots f ↔ Slot f s.1 s.2 := by
  obtain ⟨k,i⟩ := s
  simp only [slots,pageSlots,List.mem_flatMap,List.mem_map,List.mem_filter,List.mem_range,Slot,
    Prod.mk.injEq]
  constructor
  · rintro ⟨k',hk,i',⟨hi,hadm⟩,rfl,rfl⟩
    exact ⟨hk,hi,hadm⟩
  · rintro ⟨hk,hi,hadm⟩
    exact ⟨k,hk,i,⟨hi,hadm⟩,rfl,rfl⟩

theorem pairwise_slots (f : File UInt8) :
    (slots f).Pairwise fun s t => s.1 < t.1 ∨ s.1 = t.1 ∧ s.2 < t.2 := by
  refine List.pairwise_flatMap.mpr ⟨fun k _ => ?_,?_⟩
  · refine List.pairwise_map.mpr ((List.pairwise_lt_range.filter _).imp fun h => .inr ⟨rfl,h⟩)
  · refine List.pairwise_lt_range.imp fun {j k} hlt s hs t ht => .inl ?_
    obtain ⟨i,-,rfl⟩ := List.mem_map.mp hs
    obtain ⟨i',-,rfl⟩ := List.mem_map.mp ht
    exact hlt

variable {σ : Type}

def UserCode.onSlot (user : UserCode σ) (f : File UInt8) (buffer : ℕ → UInt8) (s : σ)
    (slot : ℕ × ℕ) : Except Stop σ :=
  let page := pageBuffer f buffer slot.1
  let itemid := pdLinp (pageOf f slot.1) slot.2
  user.code s itemid (getItemHeader page itemid) (getItemData page itemid)

theorem samePage_pageBuffer (f : File UInt8) (buffer : ℕ → UInt8) (k : ℕ) :
    SamePage (pageOf f k) (pageBuffer f buffer k) :=
  ToastImage.samePage_blit f k buffer

/-- The loop over the line pointers of one page, with a body that takes a step for an item and does
nothing for one that is filtered out. -/
theorem forLinp_slots {f : File UInt8} {k : ℕ} (hs : LowerSane (pageOf f k)) (buffer : ℕ → UInt8)
    {body : σ → ℕ → Except Stop σ} {step : σ → ℕ × ℕ → Except Stop σ}
    (hbody : ∀ s i, pdLinp (pageBuffer f buffer k) i = pdLinp (pageOf f k) i →
      body s i = if (pdLinp (pageOf f k) i).admitted then step s (k,i) else .ok s) (s : σ) :
    forLinp (pageBuffer f buffer k) body s = (pageSlots f k).foldlM step s := by
  have hpage := samePage_pageBuffer f buffer k
  rw [forLinp_of_sane (hpage.lowerSane.mp hs),← hpage.pageGetMaxOffsetNumber,pageSlots,List.foldlM_map]
  have hitem : ∀ i ∈ List.range (pageGetMaxOffsetNumber (pageOf f k)), ∀ s,
      body s i = if (pdLinp (pageOf f k) i).admitted then step s (k,i) else .ok s :=
    fun i hi s => hbody s i (hpage.pdLinp hs (List.mem_range.mp hi)).symm
  generalize List.range (pageGetMaxOffsetNumber (pageOf f k)) = is at hitem
  induction is generalizing s with
  | nil => rfl
  | cons i is ih =>
    have ih := fun s => ih s fun j hj => hitem j (by simp [hj])
    rw [List.foldlM_cons,List.filter_cons,hitem i (by simp)]
    cases (pdLinp (pageOf f k) i).admitted with
    | false => exact ih s
    | true => exact bind_congr ih

theorem foldlM_pages {f : File UInt8} {body : ℕ → σ → Except Stop σ}
    {step : σ → ℕ × ℕ → Except Stop σ}
    (hbody : ∀ k < f.size/PAGE_SIZE, ∀ s, body k s = (pageSlots f k).foldlM step s) (s : σ) :
    (List.range (f.size/PAGE_SIZE)).foldlM (fun s k => body k s) s = (slots f).foldlM step s := by
  have hall : ∀ ks : List ℕ, (∀ k ∈ ks, k < f.size/PAGE_SIZE) → ∀ s : σ,
      ks.foldlM (fun s k => body k s) s = (ks.flatMap (pageSlots f)).foldlM step s := by
    intro ks
    induction ks with
    | nil => exact fun _ s => rfl
    | cons k ks ih =>
      intro hks s
      rw [List.foldlM_cons,List.flatMap_cons,List.foldlM_append,hbody k (hks k (by simp))]
      exact bind_congr (ih fun j hj => hks j (by simp [hj]))
  exact hall _ (fun k hk => List.mem_range.mp hk) s

/-- On a sane file that is not empty, `main` is the set-up, one call of the user code for each
slot that holds an item, in order, and the finish. -/
theorem main_slots {f : File UInt8} (h : SaneFile f) (hpages : 0 < f.size/PAGE_SIZE)
    (user : UserCode σ) {argc : ℕ} (hargc : 2 ≤ argc) (buffer : ℕ → UInt8) :
    main user argc (.opened f) buffer = mainTry do
      let s ← user.setup argc
      let s ← (slots f).foldlM (user.onSlot f buffer) s
      return user.finish s := by
  have hloop : ∀ s : σ, ((List.range (f.size/PAGE_SIZE)).map (pageBuffer f buffer)).foldlM
      (fun s page => forLinp page (mainItem user page) s) s =
        (slots f).foldlM (user.onSlot f buffer) s := by
    intro s
    rw [List.foldlM_map]
    refine foldlM_pages (fun k hk s => forLinp_slots (h.sane k hk) buffer (fun s i hi => ?_) s) s
    rw [mainItem,hi]
    rfl
  rw [main_of_small h.aligned h.small,mainOver,if_neg]
  · simp only [hloop]
  · rw [List.map_eq_nil_iff,List.range_eq_nil]
    omega

end PageDumper
