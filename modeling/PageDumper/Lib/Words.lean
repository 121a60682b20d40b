import PageDumper.Lib.Memory

/-! Little-endian machine words stored in a flat memory of bytes. -/
namespace Words
open Memory

def le16 (m : ℕ → UInt8) (a : ℕ) : UInt16 :=
  UInt16.ofNat ((m a).toNat + 2^8*(m (a+1)).toNat)

def le32 (m : ℕ → UInt8) (a : ℕ) : UInt32 :=
  UInt32.ofNat ((m a).toNat + 2^8*(m (a+1)).toNat + 2^16*(m (a+2)).toNat + 2^24*(m (a+3)).toNat)

def leByte (w : UInt32) (i : ℕ) : UInt8 := UInt8.ofNat (w.toNat/2^(8*i))

def putLe32 (m : ℕ → UInt8) (a : ℕ) (w : UInt32) : ℕ → UInt8 := blit m a 4 (leByte w)

def leBytes (w : UInt32) : List UInt8 := window (leByte w) 0 4

@[simp] theorem length_leBytes (w : UInt32) : (leBytes w).length = 4 := by simp [leBytes]

theorem toNat_le32 (m : ℕ → UInt8) (a : ℕ) : (le32 m a).toNat =
    (m a).toNat + 2^8*(m (a+1)).toNat + 2^16*(m (a+2)).toNat + 2^24*(m (a+3)).toNat := by
  have h₀ := (m a).toNat_lt
  have h₁ := (m (a+1)).toNat_lt
  have h₂ := (m (a+2)).toNat_lt
  have h₃ := (m (a+3)).toNat_lt
  simp only [le32,UInt32.toNat_ofNat']
  omega

theorem le32_congr {m m' : ℕ → UInt8} {a b : ℕ} (h : ∀ i < 4, m (a+i) = m' (b+i)) :
    le32 m a = le32 m' b := by
  have h₀ := h 0 (by omega)
  have h₁ := h 1 (by omega)
  have h₂ := h 2 (by omega)
  have h₃ := h 3 (by omega)
  simp only [Nat.add_zero] at h₀
  simp only [le32,h₀,h₁,h₂,h₃]

theorem toNat_le32_mod (m : ℕ → UInt8) (a : ℕ) : (le32 m a).toNat % 256 = (m a).toNat := by
  have h := (m a).toNat_lt
  rw [toNat_le32]
  omega

theorem le32_leByte (w : UInt32) : le32 (leByte w) 0 = w := by
  apply UInt32.toNat_inj.mp
  have h := w.toNat_lt
  simp only [toNat_le32,leByte,UInt8.toNat_ofNat']
  omega

@[simp] theorem le32_putLe32 (m : ℕ → UInt8) (a : ℕ) (w : UInt32) : le32 (putLe32 m a w) a = w :=
  (le32_congr fun i hi => by simp [putLe32,blit_add m a _ hi]).trans (le32_leByte w)

theorem putLe32_of_le (m : ℕ → UInt8) {a i : ℕ} (w : UInt32) (hi : a+4 ≤ i) :
    putLe32 m a w i = m i := blit_of_le m _ hi

theorem le32_of_holds {m : ℕ → UInt8} {a : ℕ} {w : UInt32} (h : Holds m a (leBytes w)) :
    le32 m a = w := by
  have hw : window m a 4 = window (leByte w) 0 4 := by simpa [Holds,leBytes] using h
  exact (le32_congr (window_eq_iff.mp hw)).trans (le32_leByte w)

theorem toNat_add_of_lt {v w : UInt32} (h : v.toNat+w.toNat < 2^32) :
    (v+w).toNat = v.toNat+w.toNat := by
  rw [UInt32.toNat_add]
  exact Nat.mod_eq_of_lt h

theorem toNat_add_one {w : UInt32} (h : w.toNat+1 < 2^32) : (w+1).toNat = w.toNat+1 :=
  toNat_add_of_lt (w := 1) h

def int32 (w : UInt32) : ℤ := w.toInt32.toInt

theorem int32_eq (w : UInt32) :
    int32 w = if w.toNat < 2^31 then (w.toNat : ℤ) else (w.toNat : ℤ)-2^32 := by
  have h : int32 w = w.toBitVec.toInt := rfl
  rw [h,BitVec.toInt_eq_toNat_cond]
  simp only [UInt32.toNat_toBitVec]
  split <;> split <;> omega

theorem int32_of_lt {w : UInt32} (h : w.toNat < 2^31) : int32 w = w.toNat := by
  rw [int32_eq,if_pos h]

end Words
