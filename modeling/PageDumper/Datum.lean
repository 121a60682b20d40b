import PageDumper.Tuple
import PageDumper.PglzDecompress

/-! Field values as PostgreSQL stores them, and the macros of `tupmacs.h` and `postgres.h`
that say how long a stored value is and where the next one starts. -/
namespace PageDumper
open Memory Words

/-- The two column types of the sample table, both of alignment `'i'`. -/
inductive Column
  | int4 | varlena
  deriving DecidableEq

def varsizeAny (mem : ℕ → UInt8) : ℕ :=
  if mem 0 = 0x01 then (mem 1).toNat
  else if mem 0 &&& 0x01 = 0x01 then (mem 0 >>> 1 &&& 0x7F).toNat
  else varsize (le32 mem 0)

def intalign (len : ℕ) : ℕ := (len+3)/4*4

/-- `att_align_pointer` for alignment `'i'`; a nonzero byte is no pad byte. -/
def attAlignPointer (curOffset : ℕ) (c : Column) (mem : ℕ → UInt8) : ℕ :=
  if c = .varlena ∧ mem curOffset ≠ 0 then curOffset else intalign curOffset

def attAddlengthPointer (curOffset : ℕ) (c : Column) (mem : ℕ → UInt8) : ℕ :=
  match c with
  | .int4 => curOffset+4
  | .varlena => curOffset+varsizeAny fun i => mem (curOffset+i)

/-- A stored field value. The bounds are those of the header that has to carry the length. -/
inductive Datum
  | int4 (w : UInt32)
  | short (payload : List UInt8) (bound : payload.length ≤ 126)
  | long (compressed : Bool) (payload : List UInt8) (bound : payload.length+4 < 2^30)
  | toast (pointer : List UInt8) (bound : pointer.length = 16)

namespace Datum

def column : Datum → Column
  | .int4 _ => .int4
  | _ => .varlena

def bytes : Datum → List UInt8
  | .int4 w => leBytes w
  | .short payload _ => UInt8.ofNat (2*(payload.length+1)+1)::payload
  | .long compressed payload _ =>
    leBytes (UInt32.ofNat (4*(payload.length+4)+if compressed then 2 else 0)) ++ payload
  | .toast pointer _ => 0x01::18::pointer

/-- The four-byte header is the only varlena header that is aligned. -/
def wordAligned : Datum → Bool
  | .int4 _ | .long .. => true
  | _ => false

def padding (off : ℕ) (v : Datum) : ℕ := if v.wordAligned then (4-off%4)%4 else 0

def Plain : Datum → Prop
  | .short _ _ | .long false _ _ => True
  | _ => False

instance : DecidablePred Plain
  | .int4 _ | .long true _ _ | .toast _ _ => inferInstanceAs (Decidable False)
  | .short _ _ | .long false _ _ => inferInstanceAs (Decidable True)

def payload : Datum → List UInt8
  | .int4 w => leBytes w
  | .short payload _ | .long _ payload _ => payload
  | .toast pointer _ => pointer

def headerSize : Datum → ℕ
  | .int4 _ => 0
  | .short _ _ => 1
  | .long .. => 4
  | .toast _ _ => 2

end Datum

namespace Datum

theorem Plain.column {v : Datum} (h : v.Plain) : v.column = .varlena := by
  cases v <;> simp_all [Plain,Datum.column]

theorem length_bytes_of_int4 {v : Datum} (h : v.column = .int4) : v.bytes.length = 4 := by
  cases v <;> simp_all [Datum.column,bytes]

theorem padding_of_int4 {v : Datum} (h : v.column = .int4) (off : ℕ) :
    v.padding off = (4-off%4)%4 := by
  cases v <;> simp_all [Datum.column,padding,wordAligned]

theorem bytes_split (v : Datum) : ∃ header, v.bytes = header ++ v.payload ∧ header.length = v.headerSize := by
  cases v with
  | int4 w => exact ⟨[],rfl,rfl⟩
  | short payload bound => exact ⟨[_],rfl,rfl⟩
  | long compressed payload bound => exact ⟨leBytes _,rfl,by simp [headerSize]⟩
  | toast pointer bound => exact ⟨[_,_],rfl,rfl⟩

theorem length_bytes (v : Datum) : v.bytes.length = v.headerSize+v.payload.length := by
  obtain ⟨header,hb,hl⟩ := v.bytes_split
  rw [hb,List.length_append,hl]

end Datum

theorem intalign_eq (off : ℕ) : intalign off = off+(4-off%4)%4 := by
  simp only [intalign]
  omega

/-- `VARSIZE_ANY` agrees with the size that the source computes, except that the latter
takes the length of a TOAST pointer for granted. -/
theorem varsizeAny_eq_size {mem : ℕ → UInt8} (h : mem 0 = 1 → (mem 1).toNat = 18) :
    varsizeAny mem = (Varlena.mk mem).size.toNat := by
  have hb := (mem 0).toNat_lt
  have hone : (mem 0 = 0x01) ↔ (mem 0).toNat = 1 := by
    rw [← UInt8.toNat_inj]
    rfl
  have hodd : (mem 0 &&& 0x01 = 0x01) ↔ (mem 0).toNat%2 = 1 := by
    have hm : (mem 0).toNat &&& (0x01 : UInt8).toNat = (mem 0).toNat%2 :=
      Nat.and_two_pow_sub_one_eq_mod _ 1
    rw [← UInt8.toNat_inj,UInt8.toNat_and,hm]
    rfl
  have hhalf : (mem 0 >>> 1 &&& 0x7F).toNat = (mem 0).toNat/2 := by
    have h7 : (0x7F : UInt8).toNat = 2^7-1 := rfl
    rw [UInt8.toNat_and,h7,Nat.and_two_pow_sub_one_eq_mod,UInt8.toNat_shiftRight]
    simp only [UInt8.reduceToNat,Nat.reduceMod,Nat.shiftRight_eq_div_pow]
    omega
  rw [varsizeAny,Varlena.toNat_size,hhalf,varsize_eq]
  simp only [hodd,hone,Varlena.word] at h ⊢
  split_ifs <;> first | rfl | omega

theorem size_of_holds (mem : ℕ → UInt8) {v : Datum} (hv : v.column = .varlena)
    (h : Holds mem 0 v.bytes) :
    (Varlena.mk mem).size.toNat = v.bytes.length ∧ varsizeAny mem = v.bytes.length ∧
      (v.wordAligned = false → mem 0 ≠ 0) := by
  cases v with
  | int4 w => cases hv
  | short payload bound =>
    simp only [Datum.bytes,holds_cons] at h
    have h₀ : (mem 0).toNat = 2*(payload.length+1)+1 := by
      rw [h.1,UInt8.toNat_ofNat']
      omega
    have hs : (Varlena.mk mem).size.toNat = payload.length+1 := by
      rw [Varlena.toNat_size]
      dsimp only
      rw [if_pos (by omega),if_neg (by omega)]
      omega
    have hne : mem 0 ≠ 0 ∧ mem 0 ≠ 1 := by
      constructor <;> intro he <;> simp [he] at h₀
    rw [varsizeAny_eq_size fun he => absurd he hne.2]
    exact ⟨hs,hs,fun _ => hne.1⟩
  | long compressed payload bound =>
    simp only [Datum.bytes,holds_append] at h
    have hw : (le32 mem 0).toNat = 4*(payload.length+4)+if compressed then 2 else 0 := by
      rw [le32_of_holds h.1,UInt32.toNat_ofNat']
      split <;> omega
    have h₀ := toNat_le32_mod mem 0
    have heven : ¬ (mem 0).toNat%2 = 1 := by
      split at hw <;> omega
    have hs : (Varlena.mk mem).size.toNat = payload.length+4 := by
      rw [Varlena.toNat_size]
      dsimp only
      rw [if_neg heven,Varlena.word,hw]
      split <;> omega
    have hl : (Datum.long compressed payload bound).bytes.length = payload.length+4 := by
      simp [Datum.bytes,Nat.add_comm]
    rw [varsizeAny_eq_size fun he => absurd (by rw [he]; rfl) heven,hl]
    exact ⟨hs,hs,fun hf => by simp [Datum.wordAligned] at hf⟩
  | toast pointer bound =>
    simp only [Datum.bytes,holds_cons,Nat.zero_add] at h
    have hs : (Varlena.mk mem).size.toNat = 18 := by
      rw [Varlena.toNat_size]
      dsimp only
      have h₀ : (mem 0).toNat = 1 := by rw [h.1]; rfl
      rw [if_pos (by omega),if_pos h₀]
    have hl : (Datum.toast pointer bound).bytes.length = 18 := by
      simp [Datum.bytes,bound]
    rw [varsizeAny_eq_size fun _ => by rw [h.2.1]; rfl,hl]
    exact ⟨hs,hs,fun _ => by rw [h.1]; decide⟩

theorem dataOffset_of_holds {mem : ℕ → UInt8} {v : Datum} (hv : v.Plain) (h : Holds mem 0 v.bytes) :
    (Varlena.mk mem).dataOffset.toNat = v.headerSize := by
  cases v with
  | int4 w => cases hv
  | short payload bound =>
    simp only [Datum.bytes,holds_cons] at h
    have h₀ : (mem 0).toNat = 2*(payload.length+1)+1 := by
      rw [h.1,UInt8.toNat_ofNat']
      omega
    rw [Varlena.dataOffset,Varlena.lenType_eq]
    dsimp only
    rw [if_pos (by omega),if_neg (by omega)]
    rfl
  | long compressed payload bound =>
    cases compressed with
    | true => cases hv
    | false =>
      simp only [Datum.bytes,holds_append,Bool.false_eq_true,if_false,Nat.add_zero] at h
      have hw : (le32 mem 0).toNat = 4*(payload.length+4) := by
        rw [le32_of_holds h.1,UInt32.toNat_ofNat']
        omega
      have h₀ := toNat_le32_mod mem 0
      rw [Varlena.dataOffset,Varlena.lenType_eq]
      dsimp only
      rw [if_neg (by omega),if_pos (by omega)]
      rfl
  | toast pointer bound => cases hv

end PageDumper
