import PageDumper.ChunkRecord
import PageDumper.SampleUser

/-! Varlenas that are stored in place, read by `build_bytes` and recorded by
`fill_toast_map`. Both subtract the length of the header from `size()`, the one as a constant
for each of the two header formats and the other as `data_offset()`. -/
namespace PageDumper
open Memory Words

namespace Varlena

def Inline (v : Varlena) : Prop := v.lenType = .normal ∨ v.lenType = .oneByte

instance (v : Varlena) : Decidable v.Inline := inferInstanceAs (Decidable (_ ∨ _))

def contents (v : Varlena) : List UInt8 :=
  window v.mem v.dataOffset.toNat (v.size.toNat-v.dataOffset.toNat)

theorem dataOffset_of_normal {v : Varlena} (h : v.lenType = .normal) : v.dataOffset = 4 := by
  rw [dataOffset,h]

theorem dataOffset_of_oneByte {v : Varlena} (h : v.lenType = .oneByte) : v.dataOffset = 1 := by
  rw [dataOffset,h]

theorem buildBytes_of_inline {v : Varlena} (h : v.Inline) (heap : Heap) :
    v.buildBytes heap = pure (window v.mem v.dataOffset.toNat (v.size-v.dataOffset).toNat) := by
  rcases h with h | h
  · rw [buildBytes,h,dataOffset_of_normal h]
    rfl
  · rw [buildBytes,h,dataOffset_of_oneByte h]
    rfl

end Varlena

theorem toNat_chunkRange_first_sub (page : ℕ → UInt8) (pagePos : UInt32) (itemid : ItemIdData) :
    ((chunkRange page pagePos itemid).first-UInt32.ofNat PAGE_SIZE*pagePos).toNat =
      itemid.lpOff+(getItemHeader page itemid).tHoff.toNat+8+(chunkVarlena page itemid).dataOffset.toNat := by
  have hoff : itemid.lpOff < 2^15 := Nat.mod_lt _ (by omega)
  have hhoff := (getItemHeader page itemid).tHoff.toNat_lt
  have hdata := (chunkVarlena page itemid).dataOffset_le
  have hpage : (UInt32.ofNat PAGE_SIZE*pagePos).toNat = 8192*pagePos.toNat % 2^32 := UInt32.toNat_mul _ _
  rw [UInt32.toNat_sub,toNat_chunkRange_first,hpage]
  simp only [PAGE_SIZE]
  omega

/-- The two readers take the same bytes, those behind the header, and neither subtraction wraps. -/
structure ReadersAgree (v : Varlena) : Prop where
  noWrap : v.dataOffset.toNat ≤ v.size.toNat
  built : ∀ (heap : Heap) (σ : Option ToastMap), (v.buildBytes heap).run.run σ = (.ok v.contents,σ)
  recorded : ∀ (page : ℕ → UInt8) (pagePos : UInt32) (itemid : ItemIdData), chunkVarlena page itemid = v →
    window page ((chunkRange page pagePos itemid).first-UInt32.ofNat PAGE_SIZE*pagePos).toNat
      (chunkRange page pagePos itemid).second.toNat = v.contents

/-- A varlena stored in place is read alike by `build_bytes` and through the range that
`fill_toast_map` records, if and only if its length word, where it has one, covers the word
itself. For a shorter one `size()-4` wraps. -/
theorem readersAgree_iff {v : Varlena} (h : v.Inline) :
    ReadersAgree v ↔ (v.lenType = .normal → 16 ≤ v.word.toNat) := by
  rw [← v.dataOffset_le_size_iff]
  constructor
  · exact fun ha => ha.noWrap
  · intro hle
    have hsub : (v.size-v.dataOffset).toNat = v.size.toNat-v.dataOffset.toNat :=
      UInt32.toNat_sub_of_le _ _ (by rw [UInt32.le_iff_toNat_le]; exact hle)
    refine ⟨hle,fun heap σ => ?_,fun page pagePos itemid hv => ?_⟩
    · rw [Varlena.buildBytes_of_inline h,hsub]
      rfl
    · rw [toNat_chunkRange_first_sub,chunkRange,hv,hsub,Varlena.contents]
      refine window_congr fun i _ => ?_
      rw [← hv]
      simp only [chunkVarlena,ItemData.getVarlena,getItemData,getItemHeader]
      congr 1
      have h₈ : (8 : UInt32).toNat = 8 := rfl
      omega

def longVarlena : Varlena := ⟨fun i => if i = 0 then 64 else 0⟩

theorem readersAgree_longVarlena :
    ReadersAgree longVarlena ↔ (longVarlena.lenType = .normal → 16 ≤ longVarlena.word.toNat) :=
  readersAgree_iff (by decide)

/-- The zero word of padding: `size()` is 0 and the recorded length 4294967292. -/
theorem not_readersAgree_padding : (⟨fun _ => 0⟩ : Varlena).Inline ∧
    ¬ ReadersAgree ⟨fun _ => 0⟩ := by
  refine ⟨by decide,fun h => ?_⟩
  have hle := h.noWrap
  revert hle
  decide

end PageDumper
