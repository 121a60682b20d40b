import PageDumper.ChunkRecord
import PageDumper.Datum

/-! Well-formed toast files, described by the chunks in their slots and not by offsets, and
what `fill_toast_map` records for them. The record of a slot depends on the slot alone, so
the map contains the same entries wherever and in whatever order the chunks are stored. -/
namespace PageDumper
open Memory Words Reader RowTable

structure Chunk where
  chunkId : UInt32
  chunkSeq : UInt32
  chunkData : Datum
  plain : chunkData.Plain

namespace Chunk

def bytes (c : Chunk) : List UInt8 := leBytes c.chunkId ++ leBytes c.chunkSeq ++ c.chunkData.bytes

def payload (c : Chunk) : List UInt8 := c.chunkData.payload

theorem length_bytes (c : Chunk) : c.bytes.length = 8+c.chunkData.headerSize+c.payload.length := by
  simp only [bytes,payload,List.length_append,length_leBytes,Datum.length_bytes]
  omega

end Chunk

/-- The item is a tuple of three non-null columns, the chunk, and lies inside its item. -/
structure CarriesChunk (page : ℕ → UInt8) (itemid : ItemIdData) (c : Chunk) : Prop where
  attributes : ∀ k < 3, (getItemHeader page itemid).hasAttribute k = true
  header : 23+(if (getItemHeader page itemid).hasBitmap then 1 else 0) ≤ itemid.lpLen
  data : Holds (getItemData page itemid).data 0 c.bytes
  inside : (getItemHeader page itemid).tHoff.toNat+c.bytes.length ≤ itemid.lpLen

def SamePage (page page' : ℕ → UInt8) : Prop := ∀ i < PAGE_SIZE, page i = page' i

section SamePage

variable {page page' : ℕ → UInt8}

theorem SamePage.pdLower (h : SamePage page page') : pdLower page = pdLower page' := by
  simp only [PageDumper.pdLower,le16,h 12 (by decide),h (12+1) (by decide)]

theorem SamePage.lowerSane (h : SamePage page page') : LowerSane page ↔ LowerSane page' := by
  rw [LowerSane,LowerSane,h.pdLower]

theorem SamePage.pageGetMaxOffsetNumber (h : SamePage page page') :
    pageGetMaxOffsetNumber page = pageGetMaxOffsetNumber page' := by
  rw [PageDumper.pageGetMaxOffsetNumber,PageDumper.pageGetMaxOffsetNumber,h.pdLower]

theorem SamePage.pdLinp (h : SamePage page page') (hs : LowerSane page) {i : ℕ}
    (hi : i < PageDumper.pageGetMaxOffsetNumber page) : pdLinp page i = pdLinp page' i := by
  obtain ⟨h₁,h₂,h₃⟩ := hs
  rw [pageGetMaxOffsetNumber_eq] at hi
  simp only [PAGE_SIZE] at h₂
  have hw : le32 page (linpOffset i) = le32 page' (linpOffset i) := by
    refine le32_congr fun j hj => h _ ?_
    simp only [linpOffset,sizeOfPageHeaderData,sizeofItemIdData,PAGE_SIZE]
    omega
  rw [PageDumper.pdLinp,PageDumper.pdLinp,hw]

theorem SamePage.carriesChunk (h : SamePage page page') {itemid : ItemIdData} {c : Chunk}
    (hadm : itemid.admitted = true) (hc : CarriesChunk page itemid c) :
    CarriesChunk page' itemid c ∧
      (getItemHeader page' itemid).tHoff = (getItemHeader page itemid).tHoff := by
  obtain ⟨-,-,hlen⟩ := itemid.admitted_iff.mp hadm
  obtain ⟨hattr,hheader,hdata,hinside⟩ := hc
  have hcell : ∀ i < itemid.lpLen,
      (getItemHeader page' itemid).mem i = (getItemHeader page itemid).mem i := by
    intro i hi
    exact (h _ (by omega)).symm
  have h23 : 23 ≤ itemid.lpLen := by
    split at hheader <;> omega
  have hhoff : (getItemHeader page' itemid).tHoff = (getItemHeader page itemid).tHoff :=
    hcell 22 (by omega)
  have hinfo : (getItemHeader page' itemid).tInfomask = (getItemHeader page itemid).tInfomask := by
    simp only [ItemHeader.tInfomask,le16,hcell 20 (by omega),hcell (20+1) (by omega)]
  have hbitmap : (getItemHeader page' itemid).hasBitmap = (getItemHeader page itemid).hasBitmap := by
    rw [ItemHeader.hasBitmap,ItemHeader.hasBitmap,hinfo]
  refine ⟨⟨fun k hk => ?_,by rw [hbitmap]; exact hheader,?_,by rw [hhoff]; exact hinside⟩,hhoff⟩
  · rw [← hattr k hk]
    refine ItemHeader.hasAttribute_congr hinfo (fun hb => hcell 23 ?_) (by omega)
    rw [hb,if_pos rfl] at hheader
    omega
  · refine hdata.congr fun i hi => ?_
    simp only [getItemData,hhoff]
    exact (hcell _ (by omega)).symm

end SamePage

def chunkPlace (k : ℕ) (page : ℕ → UInt8) (itemid : ItemIdData) (c : Chunk) : ℕ :=
  PAGE_SIZE*k+itemid.lpOff+(getItemHeader page itemid).tHoff.toNat+8+c.chunkData.headerSize

def chunkEntry (k : ℕ) (page : ℕ → UInt8) (itemid : ItemIdData) (c : Chunk) : ChunkPos :=
  ⟨UInt32.ofNat (chunkPlace k page itemid c),UInt32.ofNat c.payload.length⟩

theorem fillItem_of_carries {page : ℕ → UInt8} {i k : ℕ} {c : Chunk} {pagePos : UInt32}
    (hadm : (pdLinp page i).admitted = true) (hc : CarriesChunk page (pdLinp page i) c)
    (hseq : c.chunkSeq.toNat < 2^32-1) (hpos : pagePos.toNat = k) (positions : Positions) :
    fillItem page pagePos positions i =
      .ok (put positions c.chunkId c.chunkSeq.toNat (chunkEntry k page (pdLinp page i) c)) := by
  obtain ⟨hattr,hheader,hdata,hinside⟩ := hc
  obtain ⟨-,-,hlen⟩ := (pdLinp page i).admitted_iff.mp hadm
  rw [c.length_bytes] at hinside
  simp only [Chunk.bytes,holds_append,List.length_append,length_leBytes,Nat.zero_add] at hdata
  obtain ⟨⟨hid,hsq⟩,hval⟩ := hdata
  have hval' : Holds ((getItemData page (pdLinp page i)).getVarlena 8).mem 0 c.chunkData.bytes :=
    hval.congr fun j _ => by
      simp only [ItemData.getVarlena,Nat.zero_add]
      rfl
  have hgid : (getItemData page (pdLinp page i)).getUnsigned 0 = c.chunkId := le32_of_holds hid
  have hgseq : (getItemData page (pdLinp page i)).getUnsigned 4 = c.chunkSeq := le32_of_holds hsq
  have hsize := (size_of_holds _ c.plain.column hval').1
  have hoff := dataOffset_of_holds c.plain hval'
  rw [Datum.length_bytes] at hsize
  have hentry : chunkRange page pagePos (pdLinp page i) = chunkEntry k page (pdLinp page i) c := by
    rw [chunkEntry,ChunkPos.mk.injEq]
    constructor
    · apply UInt32.toNat_inj.mp
      rw [toNat_chunkRange_first,UInt32.toNat_ofNat',chunkPlace,hpos,chunkVarlena,hoff]
    · apply UInt32.toNat_inj.mp
      rw [chunkRange,UInt32.toNat_sub_of_le _ _ (by rw [UInt32.le_iff_toNat_le,chunkVarlena,hsize,hoff]; omega),
        chunkVarlena,hsize,hoff,UInt32.toNat_ofNat']
      simp only [PAGE_SIZE] at hlen
      simp only [Chunk.payload] at hinside ⊢
      omega
  have hcols : ThreeColumns page (pdLinp page i) :=
    ⟨hattr 0 (by omega),hattr 1 (by omega),hattr 2 (by omega)⟩
  rw [fillItem_of_admitted hadm,if_pos hcols,hentry,chunkId,chunkSeq,hgid,hgseq]
  exact recordChunk_eq positions _ _ hseq

end PageDumper
