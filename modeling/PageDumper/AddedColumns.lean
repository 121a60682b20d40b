import PageDumper.SampleWalk
import Mathlib.Tactic.IntervalCases

/-! Tuples with fewer attributes than the table has columns, as PostgreSQL leaves them behind
when a column is added: the columns past `number_attributes()` are null. -/
namespace PageDumper

def bitmaplen (natts : ℕ) : ℕ := (natts+7)/8

namespace ItemHeader

/-- A tuple header as PostgreSQL writes it for the sample table: a null bitmap, if there is one,
has a bit for every attribute and is filled up to whole bytes with zero bits. -/
structure WellFormed (h : ItemHeader) : Prop where
  natts_ge : 2 ≤ h.numberAttributes.toNat
  natts_le : h.numberAttributes.toNat ≤ 11
  spare : h.hasBitmap = true → ∀ k, h.numberAttributes.toNat ≤ k →
    k < 8*bitmaplen h.numberAttributes.toNat → attIsnull k h.tBits = true

theorem attIsnull_eq (k : ℕ) (bits : ℕ → UInt8) :
    attIsnull k bits = decide ((bits (k/8)).toNat/2^(k%8)%2 = 0) := by
  have h₇ : k &&& 0x07 = k%8 := Nat.and_two_pow_sub_one_eq_mod k 3
  have h₃ : k >>> 3 = k/8 := Nat.shiftRight_eq_div_pow k 3
  rw [attIsnull,h₇,h₃,Nat.one_shiftLeft,Nat.and_two_pow,Nat.toNat_testBit,decide_eq_decide]
  simp

theorem attIsnull_second (bits : ℕ → UInt8) :
    (∀ k, 8 ≤ k → k < 11 → attIsnull k bits = true) ↔ (bits 1).toNat%8 = 0 := by
  constructor
  · intro h
    have h₀ := h 8 (by omega) (by omega)
    have h₁ := h 9 (by omega) (by omega)
    have h₂ := h 10 (by omega) (by omega)
    simp only [attIsnull_eq,decide_eq_true_eq,Nat.reduceDiv,Nat.reduceMod,Nat.reducePow] at h₀ h₁ h₂
    omega
  · intro h k hk hk'
    obtain rfl | rfl | rfl : k = 8 ∨ k = 9 ∨ k = 10 := by omega
    all_goals
      simp only [attIsnull_eq,decide_eq_true_eq,Nat.reduceDiv,Nat.reduceMod,Nat.reducePow]
      omega

def Stored (h : ItemHeader) (k : ℕ) : Prop :=
  k < h.numberAttributes.toNat ∧ (h.hasBitmap = true → attIsnull k h.tBits = false)

theorem hasAttribute_iff_stored_iff (h : ItemHeader) :
    (∀ k < 11, h.hasAttribute k = true ↔ h.Stored k) ↔
      ∀ k, h.numberAttributes.toNat ≤ k → k < 11 → h.hasAttribute k = false := by
  constructor
  · intro hs k hn hk
    by_contra hne
    have := (hs k hk).mp (by simpa using hne)
    exact absurd this.1 (by omega)
  · intro hs k hk
    constructor
    · intro hattr
      refine ⟨?_,fun hb => ?_⟩
      · by_contra hn
        rw [hs k (by omega) hk] at hattr
        cases hattr
      · simpa [hasAttribute,hb] using hattr
    · rintro ⟨-,hbit⟩
      rw [hasAttribute]
      cases hb : h.hasBitmap with
      | false => rfl
      | true => simp [hbit hb]

end ItemHeader

/-- The code takes a column exactly if the tuple stores it, and the walk has no field where the
tuple has no attribute. -/
def DecodesStored (h : ItemHeader) (d : ItemData) : Prop :=
  (∀ k < 11, h.hasAttribute k = true ↔ h.Stored k) ∧
    ∀ w, walk h d = .ok w → ∀ k, h.numberAttributes.toNat ≤ k → k < 11 → w.starts[k]? = some none

theorem decodesStored_iff_absent (h : ItemHeader) (d : ItemData) : DecodesStored h d ↔
    ∀ k, h.numberAttributes.toNat ≤ k → k < 11 → h.hasAttribute k = false := by
  rw [DecodesStored,h.hasAttribute_iff_stored_iff,and_iff_left_iff_imp]
  intro habs w hw k hn hk
  have hnone := walk_isNone hw hk
  rw [habs k hn hk,Bool.not_false] at hnone
  obtain ⟨field,hfield,hf⟩ := Option.map_eq_some_iff.mp hnone
  rw [hfield,Option.isNone_iff_eq_none.mp hf]

/-- A well-formed tuple of the sample table is decoded with null in the columns that were added
after it was written, if and only if it has all eleven attributes, or it has a null bitmap and
the bits of the last three columns are zero: those of a bitmap of two bytes are, and a bitmap of
one byte does not have them. -/
theorem decodesStored_iff {h : ItemHeader} (hw : h.WellFormed) (d : ItemData) : DecodesStored h d ↔
    h.numberAttributes.toNat = 11 ∨
      (h.hasBitmap = true ∧ (8 < h.numberAttributes.toNat ∨ (h.tBits 1).toNat%8 = 0)) := by
  have hge := hw.natts_ge
  have hle := hw.natts_le
  rw [decodesStored_iff_absent]
  cases hb : h.hasBitmap with
  | false =>
    have hall : ∀ k, h.hasAttribute k = true := fun k => by simp [ItemHeader.hasAttribute,hb]
    constructor
    · intro habs
      by_contra hc
      have := habs 10 (by omega) (by omega)
      rw [hall] at this
      cases this
    · rintro (hn | hn)
      · intro k hk hk'
        omega
      · cases hn.1
  | true =>
    have hattr : ∀ k, h.hasAttribute k = false ↔ ItemHeader.attIsnull k h.tBits = true := fun k => by
      simp [ItemHeader.hasAttribute,hb]
    simp only [hattr,true_and]
    constructor
    · intro habs
      rcases Nat.lt_or_ge 8 h.numberAttributes.toNat with hn | hn
      · exact .inr (.inl hn)
      · have hbits := (ItemHeader.attIsnull_second h.tBits).mp fun k hk hk' => habs k (by omega) hk'
        exact .inr (.inr hbits)
    · rintro (hn | hn | hn) k hk hk'
      · omega
      · exact hw.spare hb k hk (by rw [bitmaplen]; omega)
      · rcases Nat.lt_or_ge 8 h.numberAttributes.toNat with hn' | hn'
        · exact hw.spare hb k hk (by rw [bitmaplen]; omega)
        · rcases Nat.lt_or_ge k 8 with hk₈ | hk₈
          · exact hw.spare hb k hk (by rw [bitmaplen]; omega)
          · exact (ItemHeader.attIsnull_second h.tBits).mpr hn k hk₈ hk'

def nineColumns : ItemHeader :=
  ⟨fun i => ([(18,9),(20,1),(22,32),(23,0xff),(24,1)] : List (ℕ × UInt8)).lookup i |>.getD 0⟩

theorem wellFormed_nineColumns : nineColumns.WellFormed where
  natts_ge := by decide
  natts_le := by decide
  spare := by
    rintro - k hk hk'
    rw [show nineColumns.numberAttributes.toNat = 9 from rfl] at hk hk'
    simp only [bitmaplen] at hk'
    interval_cases k <;> rfl

theorem decodesStored_nineColumns : DecodesStored nineColumns ⟨nineColumns,fun _ => 5,18⟩ ↔
    nineColumns.numberAttributes.toNat = 11 ∨ (nineColumns.hasBitmap = true ∧
      (8 < nineColumns.numberAttributes.toNat ∨ (nineColumns.tBits 1).toNat%8 = 0)) :=
  decodesStored_iff wellFormed_nineColumns _

/-- A tuple of ten attributes without nulls, written before the column `point` was added. -/
def tenColumns : ItemHeader :=
  ⟨fun i => ([(18,10),(22,24)] : List (ℕ × UInt8)).lookup i |>.getD 0⟩

theorem not_decodesStored_tenColumns :
    tenColumns.WellFormed ∧ ∀ d, ¬ DecodesStored tenColumns d := by
  refine ⟨⟨by decide,by decide,fun hb => by cases hb⟩,fun d h => ?_⟩
  have habs := (decodesStored_iff_absent tenColumns d).mp h 10 (by decide) (by omega)
  cases habs

end PageDumper
