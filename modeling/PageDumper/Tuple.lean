import PageDumper.Page
import Mathlib.Data.Nat.Bitwise

/-! Tuples as `page_dumper.h` reads them: the heap tuple header, the accessors of
`ItemData`, and the four shapes of a varlena. All of them are views of one memory, so a
read behind a short item is a read of whatever follows it. -/
namespace PageDumper
open Words

/-- `HeapTupleHeaderData`, as the memory from its first byte on. -/
structure ItemHeader where
  mem : ℕ → UInt8

namespace ItemHeader

def tInfomask2 (h : ItemHeader) : UInt16 := le16 h.mem 18
def tInfomask (h : ItemHeader) : UInt16 := le16 h.mem 20
def tHoff (h : ItemHeader) : UInt8 := h.mem 22
def tBits (h : ItemHeader) (i : ℕ) : UInt8 := h.mem (23+i)

def HEAP_HASNULL : UInt16 := 0x0001
def HEAP_NATTS_MASK : UInt16 := 0x07FF

def numberAttributes (h : ItemHeader) : UInt32 := (h.tInfomask2 &&& HEAP_NATTS_MASK).toUInt32

def hasBitmap (h : ItemHeader) : Bool := h.tInfomask &&& HEAP_HASNULL ≠ 0

def attIsnull (att : ℕ) (bits : ℕ → UInt8) : Bool :=
  (bits (att >>> 3)).toNat &&& (1 <<< (att &&& 0x07)) = 0

def hasAttribute (h : ItemHeader) (pos : ℕ) : Bool :=
  if !h.hasBitmap then true else !attIsnull pos h.tBits

theorem hasAttribute_congr {h h' : ItemHeader} (hinfo : h'.tInfomask = h.tInfomask)
    (hbits : h.hasBitmap = true → h'.tBits 0 = h.tBits 0) {k : ℕ} (hk : k < 8) :
    h'.hasAttribute k = h.hasAttribute k := by
  have hbitmap : h'.hasBitmap = h.hasBitmap := by rw [hasBitmap,hasBitmap,hinfo]
  have hz : k >>> 3 = 0 := by
    rw [Nat.shiftRight_eq_div_pow]
    omega
  rw [hasAttribute,hasAttribute,hbitmap]
  cases hb : h.hasBitmap with
  | false => rfl
  | true => simp only [attIsnull,hz,hbits hb]

end ItemHeader

structure Varlena where
  mem : ℕ → UInt8

inductive LenType
  | normal | compressed | toasted | oneByte
  deriving DecidableEq

namespace Varlena

/-- `_size()`: the four length bytes as one word, whatever they are. -/
def word (v : Varlena) : UInt32 := le32 v.mem 0

def lenType (v : Varlena) : LenType :=
  if v.mem 0 &&& 0x1 ≠ 0 then
    if v.mem 0 = 1 then .toasted else .oneByte
  else if v.mem 0 &&& 0x2 = 0 then .normal else .compressed

def size (v : Varlena) : UInt32 :=
  match v.lenType with
  | .normal => v.word >>> 2
  | .compressed => v.word >>> 2
  | .toasted => 18
  | .oneByte => (v.word &&& 0xFF) >>> 1

def dataOffset (v : Varlena) : UInt32 :=
  match v.lenType with
  | .normal => 4
  | .oneByte => 1
  | _ => 0

end Varlena

structure ItemData where
  header : ItemHeader
  data : ℕ → UInt8
  dataSize : UInt32

namespace ItemData

def wordPadding (pos : UInt32) : UInt32 := (4-pos%4)%4

/-- The address that `get_unsigned` and `get_integer` read, from the start of the data. -/
def wordStart (pos : UInt32) : ℕ := pos.toNat+(wordPadding pos).toNat

def getUnsigned (d : ItemData) (pos : UInt32) : UInt32 := le32 d.data (wordStart pos)
def getUnsignedSize (_ : ItemData) (pos : UInt32) : UInt32 := 4+wordPadding pos
def getInteger (d : ItemData) (pos : UInt32) : ℤ := int32 (le32 d.data (wordStart pos))
def getIntegerSize (_ : ItemData) (pos : UInt32) : UInt32 := 4+wordPadding pos

/-- Unlike the two word accessors, no padding is skipped. -/
def getVarlena (d : ItemData) (pos : UInt32) : Varlena := ⟨fun i => d.data (pos.toNat+i)⟩
def getVarlenaSize (d : ItemData) (pos : UInt32) : UInt32 := (d.getVarlena pos).size

end ItemData

def getItemHeader (page : ℕ → UInt8) (itemid : ItemIdData) : ItemHeader :=
  ⟨fun i => page (itemid.lpOff+i)⟩

def getItemData (page : ℕ → UInt8) (itemid : ItemIdData) : ItemData :=
  let header := getItemHeader page itemid
  { header
    data := fun i => header.mem (header.tHoff.toNat+i)
    dataSize := UInt32.ofNat itemid.lpLen-header.tHoff.toUInt32 }

namespace ItemData

theorem toNat_wordPadding (pos : UInt32) : (wordPadding pos).toNat = (4-pos.toNat%4)%4 := by
  have h₄ : (4 : UInt32).toNat = 4 := rfl
  have hm : (pos%4).toNat = pos.toNat%4 := by rw [UInt32.toNat_mod,h₄]
  have hle : pos%4 ≤ 4 := by
    rw [UInt32.le_iff_toNat_le,hm,h₄]
    omega
  rw [wordPadding,UInt32.toNat_mod,UInt32.toNat_sub_of_le _ _ hle,hm,h₄]

theorem toNat_add_word (d : ItemData) (pos : UInt32)
    (h : pos.toNat+(4-pos.toNat%4)%4+4 < 2^32) :
    (pos+d.getIntegerSize pos).toNat = pos.toNat+(4-pos.toNat%4)%4+4 := by
  have h₄ : (4 : UInt32).toNat = 4 := rfl
  have hs : (d.getIntegerSize pos).toNat = 4+(4-pos.toNat%4)%4 := by
    rw [getIntegerSize,UInt32.toNat_add,toNat_wordPadding,h₄]
    omega
  rw [toNat_add_of_lt (by omega),hs]
  omega

end ItemData

namespace Varlena

theorem lenType_eq (v : Varlena) : v.lenType =
    if (v.mem 0).toNat%2 = 1 then (if (v.mem 0).toNat = 1 then .toasted else .oneByte)
    else if (v.mem 0).toNat%4 = 0 then .normal else .compressed := by
  have h₁ : (v.mem 0 &&& 0x1 ≠ 0) ↔ (v.mem 0).toNat%2 = 1 := by
    have h : (v.mem 0 &&& 0x1).toNat = (v.mem 0).toNat%2 := by
      rw [UInt8.toNat_and]
      exact Nat.and_two_pow_sub_one_eq_mod _ 1
    rw [Ne,← UInt8.toNat_inj,h,UInt8.toNat_zero]
    omega
  have h₃ : (v.mem 0 = 1) ↔ (v.mem 0).toNat = 1 := by
    rw [← UInt8.toNat_inj]
    rfl
  have h₂ : (v.mem 0 &&& 0x2 = 0) ↔ (v.mem 0).toNat/2%2 = 0 := by
    have h : (v.mem 0 &&& 0x2).toNat = (v.mem 0).toNat/2^1%2*2^1 := by
      rw [UInt8.toNat_and,show (0x2 : UInt8).toNat = 2^1 from rfl,Nat.and_two_pow,Nat.toNat_testBit]
    rw [← UInt8.toNat_inj,h,UInt8.toNat_zero]
    omega
  simp only [lenType,h₁,h₂,h₃]
  split_ifs <;> first | rfl | omega

/-- The size, as arithmetic on the first byte and the length word. A one-byte header is
read through the word too, but only its low byte counts. -/
theorem toNat_size (v : Varlena) : v.size.toNat =
    if (v.mem 0).toNat%2 = 1 then (if (v.mem 0).toNat = 1 then 18 else (v.mem 0).toNat/2)
    else v.word.toNat/4 := by
  have hw : (v.word >>> 2).toNat = v.word.toNat/4 := by
    simp [UInt32.toNat_shiftRight,Nat.shiftRight_eq_div_pow]
  have hb : ((v.word &&& 0xFF) >>> 1).toNat = (v.mem 0).toNat/2 := by
    have hm : (0xFF : UInt32).toNat = 2^8-1 := rfl
    have hand : (v.word &&& 0xFF).toNat = (v.mem 0).toNat := by
      rw [UInt32.toNat_and,hm,Nat.and_two_pow_sub_one_eq_mod]
      exact toNat_le32_mod v.mem 0
    rw [UInt32.toNat_shiftRight,hand]
    simp [Nat.shiftRight_eq_div_pow]
  rw [size,lenType_eq]
  split_ifs
  · rfl
  · exact hb
  · exact hw
  · exact hw

theorem dataOffset_le (v : Varlena) : v.dataOffset.toNat ≤ 4 := by
  rw [dataOffset]
  cases v.lenType <;> decide

theorem dataOffset_le_size_iff (v : Varlena) :
    v.dataOffset.toNat ≤ v.size.toNat ↔ (v.lenType = .normal → 16 ≤ v.word.toNat) := by
  rw [toNat_size,dataOffset,lenType_eq]
  have h₄ : (4 : UInt32).toNat = 4 := rfl
  have h₁ : (1 : UInt32).toNat = 1 := rfl
  have h₀ : (0 : UInt32).toNat = 0 := rfl
  split_ifs <;> simp_all <;> omega

end Varlena

end PageDumper
