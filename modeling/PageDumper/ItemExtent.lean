import PageDumper.ChunkRecord

/-! Which bytes of a page the body of the loop in `fill_toast_map` reads for an item, and when
these and the range it records lie inside the item. -/
namespace PageDumper
open Words

namespace Varlena

/-- How many bytes `len_type`, `size` and `data_offset` read: the length word, of which only the
first byte is looked at for a TOAST pointer. -/
def headerReads (v : Varlena) : ℕ := if v.lenType = .toasted then 1 else 4

theorem headerReads_pos (v : Varlena) : 1 ≤ v.headerReads := by
  rw [headerReads]
  split <;> omega

theorem header_congr (v v' : Varlena) (h : ∀ i < v.headerReads, v'.mem i = v.mem i) :
    v'.size = v.size ∧ v'.dataOffset = v.dataOffset := by
  have hpos := v.headerReads_pos
  have htype : v'.lenType = v.lenType := by simp only [lenType,h 0 (by omega)]
  refine ⟨?_,by rw [dataOffset,dataOffset,htype]⟩
  by_cases ht : v.lenType = .toasted
  · rw [size,size,htype,ht]
  · have hword : v'.word = v.word := by
      refine le32_congr fun i hi => ?_
      rw [Nat.zero_add]
      exact h i (by rw [headerReads,if_neg ht]; exact hi)
    rw [size,size,htype,hword]

theorem dataOffset_le_headerReads (v : Varlena) : v.dataOffset.toNat ≤ v.headerReads := by
  rw [dataOffset,headerReads]
  cases v.lenType <;> decide

end Varlena

/-- The bytes that are read for an admitted item, counted from its first one: `t_hoff`, the
infomask, the null bitmap if there is one, and behind the assertions the two words and the
varlena. -/
def itemReads (page : ℕ → UInt8) (itemid : ItemIdData) : List ℕ :=
  let header := getItemHeader page itemid
  [22,20,21] ++ (if header.hasBitmap then [23] else []) ++
    if ThreeColumns page itemid then
      (List.range (8+(chunkVarlena page itemid).headerReads)).map (header.tHoff.toNat+·)
    else []

theorem fillItem_congr {page page' : ℕ → UInt8} {i : ℕ} (hlinp : pdLinp page' i = pdLinp page i)
    (h : ∀ a ∈ itemReads page (pdLinp page i),
      page' ((pdLinp page i).lpOff+a) = page ((pdLinp page i).lpOff+a))
    (pagePos : UInt32) (positions : Positions) :
    fillItem page' pagePos positions i = fillItem page pagePos positions i := by
  cases hadm : (pdLinp page i).admitted with
  | false =>
    have hadm' : (pdLinp page' i).admitted = false := by rw [hlinp]; exact hadm
    rw [fillItem_of_not_admitted hadm',fillItem_of_not_admitted hadm]
  | true =>
    have hadm' : (pdLinp page' i).admitted = true := by rw [hlinp]; exact hadm
    rw [fillItem_of_admitted hadm',fillItem_of_admitted hadm,hlinp]
    generalize pdLinp page i = itemid at h
    have hhoff : (getItemHeader page' itemid).tHoff = (getItemHeader page itemid).tHoff :=
      h 22 (by simp [itemReads])
    have hinfo : (getItemHeader page' itemid).tInfomask = (getItemHeader page itemid).tInfomask := by
      have h₂₀ := h 20 (by simp [itemReads])
      have h₂₁ := h 21 (by simp [itemReads])
      simp only [ItemHeader.tInfomask,le16,getItemHeader,h₂₀,h₂₁]
    have hattr : ∀ k < 8, (getItemHeader page' itemid).hasAttribute k =
        (getItemHeader page itemid).hasAttribute k := by
      intro k hk
      exact ItemHeader.hasAttribute_congr hinfo (fun hb => h 23 (by simp [itemReads,hb])) hk
    have hcols : ThreeColumns page' itemid ↔ ThreeColumns page itemid := by
      rw [ThreeColumns,ThreeColumns,hattr 0 (by omega),hattr 1 (by omega),hattr 2 (by omega)]
    by_cases hc : ThreeColumns page itemid
    · rw [if_pos hc,if_pos (hcols.mpr hc)]
      have hdata : ∀ a < 8+(chunkVarlena page itemid).headerReads,
          (getItemData page' itemid).data a = (getItemData page itemid).data a := by
        intro a ha
        have hr := h ((getItemHeader page itemid).tHoff.toNat+a) (by simp [itemReads,hc,ha])
        simp only [getItemData,hhoff]
        exact hr
      have h₀ : ItemData.wordStart 0 = 0 := rfl
      have h₄ : ItemData.wordStart 4 = 4 := rfl
      have h₈ : (8 : UInt32).toNat = 8 := rfl
      have hid : chunkId page' itemid = chunkId page itemid :=
        le32_congr fun a ha => hdata _ (by omega)
      have hseq : chunkSeq page' itemid = chunkSeq page itemid :=
        le32_congr fun a ha => hdata _ (by omega)
      obtain ⟨hsize,hoff⟩ := Varlena.header_congr (chunkVarlena page itemid)
        (chunkVarlena page' itemid) fun a ha => hdata _ (by omega)
      rw [hid,hseq,chunkRange,chunkRange,hsize,hoff,hhoff]
    · rw [if_neg hc,if_neg (fun h => hc (hcols.mp h))]

/-- The item is decoded within its own extent: the size of its data does not wrap, every byte
read for it belongs to it, and so does the recorded range of the file. -/
structure ItemContained (page : ℕ → UInt8) (pagePos : UInt32) (itemid : ItemIdData) : Prop where
  dataSize : (getItemData page itemid).dataSize.toNat+(getItemHeader page itemid).tHoff.toNat = itemid.lpLen
  reads : ∀ a ∈ itemReads page itemid, a < itemid.lpLen
  recorded : ThreeColumns page itemid →
    PAGE_SIZE*pagePos.toNat+itemid.lpOff ≤ (chunkRange page pagePos itemid).first.toNat ∧
      (chunkRange page pagePos itemid).first.toNat+(chunkRange page pagePos itemid).second.toNat ≤
        PAGE_SIZE*pagePos.toNat+itemid.lpOff+itemid.lpLen

/-- The item is long enough for its header, and for the varlena behind the two words, which in
turn covers its own length word. -/
structure ItemFits (page : ℕ → UInt8) (itemid : ItemIdData) : Prop where
  header : 23+(if (getItemHeader page itemid).hasBitmap then 1 else 0) ≤ itemid.lpLen
  hoff : (getItemHeader page itemid).tHoff.toNat ≤ itemid.lpLen
  chunk : ThreeColumns page itemid →
    (getItemHeader page itemid).tHoff.toNat+8+
        max (chunkVarlena page itemid).headerReads (chunkVarlena page itemid).size.toNat ≤ itemid.lpLen ∧
      ((chunkVarlena page itemid).lenType = .normal → 16 ≤ (chunkVarlena page itemid).word.toNat)

theorem toNat_dataSize (page : ℕ → UInt8) (itemid : ItemIdData) :
    (getItemData page itemid).dataSize.toNat+(getItemHeader page itemid).tHoff.toNat = itemid.lpLen ↔
      (getItemHeader page itemid).tHoff.toNat ≤ itemid.lpLen := by
  have hlen : itemid.lpLen < 2^15 := by
    have := itemid.word.toNat_lt
    rw [ItemIdData.lpLen]
    omega
  have hhoff := (getItemHeader page itemid).tHoff.toNat_lt
  simp only [getItemData,UInt32.toNat_sub,UInt32.toNat_ofNat',UInt8.toNat_toUInt32]
  omega

theorem itemReads_inside_iff (page : ℕ → UInt8) (itemid : ItemIdData) :
    (∀ a ∈ itemReads page itemid, a < itemid.lpLen) ↔
      23+(if (getItemHeader page itemid).hasBitmap then 1 else 0) ≤ itemid.lpLen ∧
        (ThreeColumns page itemid → (getItemHeader page itemid).tHoff.toNat+8+
          (chunkVarlena page itemid).headerReads ≤ itemid.lpLen) := by
  have hpos := (chunkVarlena page itemid).headerReads_pos
  constructor
  · intro h
    refine ⟨?_,fun hc => ?_⟩
    · have h₂₂ := h 22 (by simp [itemReads])
      cases hb : (getItemHeader page itemid).hasBitmap with
      | false => simpa using Nat.succ_le_of_lt h₂₂
      | true =>
        have h₂₃ := h 23 (by simp [itemReads,hb])
        simpa using Nat.succ_le_of_lt h₂₃
    · have hlast := h ((getItemHeader page itemid).tHoff.toNat+
        (7+(chunkVarlena page itemid).headerReads)) (by simp [itemReads,hc])
      omega
  · rintro ⟨hheader,hchunk⟩ a ha
    simp only [itemReads,List.mem_append,List.mem_cons,List.not_mem_nil,or_false] at ha
    rcases ha with (ha | ha) | ha
    · omega
    · split at ha
      · rename_i hb
        rw [if_pos hb] at hheader
        simp only [List.mem_cons,List.not_mem_nil,or_false] at ha
        omega
      · cases ha
    · split at ha
      · rename_i hc
        obtain ⟨j,hj,rfl⟩ := List.mem_map.mp ha
        have := List.mem_range.mp hj
        have := hchunk hc
        omega
      · cases ha

theorem toNat_chunkRange_first_of_inside {page : ℕ → UInt8} {pagePos : UInt32} {itemid : ItemIdData}
    (hadm : itemid.admitted = true) (hk : PAGE_SIZE*(pagePos.toNat+1) < 2^32)
    (hin : (getItemHeader page itemid).tHoff.toNat+8+(chunkVarlena page itemid).headerReads ≤ itemid.lpLen) :
    (chunkRange page pagePos itemid).first.toNat = PAGE_SIZE*pagePos.toNat+itemid.lpOff+
      (getItemHeader page itemid).tHoff.toNat+8+(chunkVarlena page itemid).dataOffset.toNat := by
  obtain ⟨-,-,hlen⟩ := itemid.admitted_iff.mp hadm
  have hoff := (chunkVarlena page itemid).dataOffset_le_headerReads
  rw [Nat.mul_add] at hk
  rw [toNat_chunkRange_first]
  exact Nat.mod_eq_of_lt (by omega)

/-- The recorded range lies inside the item if and only if the varlena does and covers its own
length word: otherwise the length wraps to almost 4 GiB. -/
theorem chunkRange_inside_iff {page : ℕ → UInt8} {pagePos : UInt32} {itemid : ItemIdData}
    (hadm : itemid.admitted = true) (hk : PAGE_SIZE*(pagePos.toNat+1) < 2^32)
    (hin : (getItemHeader page itemid).tHoff.toNat+8+(chunkVarlena page itemid).headerReads ≤ itemid.lpLen) :
    (PAGE_SIZE*pagePos.toNat+itemid.lpOff ≤ (chunkRange page pagePos itemid).first.toNat ∧
      (chunkRange page pagePos itemid).first.toNat+(chunkRange page pagePos itemid).second.toNat ≤
        PAGE_SIZE*pagePos.toNat+itemid.lpOff+itemid.lpLen) ↔
      (getItemHeader page itemid).tHoff.toNat+8+(chunkVarlena page itemid).size.toNat ≤ itemid.lpLen ∧
        (chunkVarlena page itemid).dataOffset.toNat ≤ (chunkVarlena page itemid).size.toNat := by
  obtain ⟨-,-,hlen⟩ := itemid.admitted_iff.mp hadm
  have hoff := (chunkVarlena page itemid).dataOffset_le_headerReads
  have hreads : (chunkVarlena page itemid).headerReads ≤ 4 := by
    rw [Varlena.headerReads]
    split <;> omega
  have hsize := (chunkVarlena page itemid).size.toNat_lt
  have hsecond : (chunkRange page pagePos itemid).second.toNat =
      (2^32-(chunkVarlena page itemid).dataOffset.toNat+(chunkVarlena page itemid).size.toNat) % 2^32 :=
    UInt32.toNat_sub _ _
  rw [toNat_chunkRange_first_of_inside hadm hk hin,hsecond]
  simp only [PAGE_SIZE] at hk hlen ⊢
  omega

/-- An admitted item of a page inside a file below 4 GiB is decoded within its own extent if and
only if it is long enough for what its own bytes say it contains. The filters compare only its
line pointer with the page. -/
theorem itemContained_iff {page : ℕ → UInt8} {pagePos : UInt32} {itemid : ItemIdData}
    (hadm : itemid.admitted = true) (hk : PAGE_SIZE*(pagePos.toNat+1) < 2^32) :
    ItemContained page pagePos itemid ↔ ItemFits page itemid := by
  constructor
  · rintro ⟨hsize,hreads,hrec⟩
    obtain ⟨hheader,hword⟩ := (itemReads_inside_iff page itemid).mp hreads
    refine ⟨hheader,(toNat_dataSize page itemid).mp hsize,fun hc => ?_⟩
    have hw := hword hc
    obtain ⟨hend,hle⟩ := (chunkRange_inside_iff hadm hk hw).mp (hrec hc)
    exact ⟨by omega,(Varlena.dataOffset_le_size_iff _).mp hle⟩
  · rintro ⟨hheader,hhoff,hchunk⟩
    refine ⟨(toNat_dataSize page itemid).mpr hhoff,(itemReads_inside_iff page itemid).mpr ⟨hheader,?_⟩,?_⟩
    · intro hc
      have := (hchunk hc).1
      omega
    · intro hc
      obtain ⟨hfit,hlong⟩ := hchunk hc
      exact (chunkRange_inside_iff hadm hk (by omega)).mpr
        ⟨by omega,(Varlena.dataOffset_le_size_iff _).mpr hlong⟩

theorem itemContained_toastPage : ItemContained (toastPage 0) 3 (pdLinp (toastPage 0) 0) ↔
    ItemFits (toastPage 0) (pdLinp (toastPage 0) 0) :=
  itemContained_iff (by decide) (by decide)

/-- A page whose only item is its last byte. -/
def shortItemPage : ℕ → UInt8 := fun i =>
  (([(12,28),(24,0xff),(25,0x9f),(26,0x02)] : List (ℕ × UInt8)).lookup i).getD 0

theorem not_itemContained_shortItemPage : (pdLinp shortItemPage 0).admitted = true ∧
    (pdLinp shortItemPage 0).lpOff = 8191 ∧ (pdLinp shortItemPage 0).lpLen = 1 ∧
    ¬ ItemContained shortItemPage 0 (pdLinp shortItemPage 0) := by
  refine ⟨by decide,by decide,by decide,fun h => ?_⟩
  have h₂₂ := h.reads 22 (by simp [itemReads])
  revert h₂₂
  decide

end PageDumper
