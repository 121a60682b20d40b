import Mathlib.Data.List.Basic
import Mathlib.Tactic.Common

/-! Bytes as text: each byte is two digits of base 16, the high one first, followed by a
separator. A reader takes the digits and the separators off again. -/
namespace HexText

def digit (n : ℕ) : UInt8 := if n < 10 then UInt8.ofNat (0x30+n) else UInt8.ofNat (0x41+(n-10))

def digitValue (b : UInt8) : Option ℕ :=
  if 0x30 ≤ b ∧ b ≤ 0x39 then some (b.toNat-0x30)
  else if 0x41 ≤ b ∧ b ≤ 0x46 then some (b.toNat-0x37)
  else none

theorem digitValue_digit : ∀ n < 16, digitValue (digit n) = some n := by decide

variable (sep : List UInt8)

def byteText (b : UInt8) : List UInt8 := digit (b.toNat/16)::digit (b.toNat%16)::sep

def text (s : List UInt8) : List UInt8 := s.flatMap (byteText sep)

/-- The inverse of `text`, where there is one. -/
def readText : List UInt8 → Option (List UInt8)
  | [] => some []
  | [_] => none
  | a::b::rest =>
    match digitValue a, digitValue b with
    | some high, some low =>
      if sep <+: rest then (readText (rest.drop sep.length)).map (UInt8.ofNat (16*high+low)::·)
      else none
    | _, _ => none
termination_by l => l.length
decreasing_by simp only [List.length_drop,List.length_cons]; omega

theorem digits_byte (b : UInt8) : UInt8.ofNat (16*(b.toNat/16)+b.toNat%16) = b := by
  rw [Nat.div_add_mod,UInt8.ofNat_toNat]

theorem readText_text (s : List UInt8) : readText sep (text sep s) = some s := by
  induction s with
  | nil => rw [text,List.flatMap_nil,readText]
  | cons b s ih =>
    have hb := b.toNat_lt
    have hhigh := digitValue_digit (b.toNat/16) (by omega)
    have hlow := digitValue_digit (b.toNat%16) (by omega)
    rw [text,List.flatMap_cons,← text,byteText,List.cons_append,List.cons_append,readText]
    simp only [hhigh,hlow,List.prefix_append,if_true,List.drop_left,ih,Option.map_some,digits_byte]

end HexText
