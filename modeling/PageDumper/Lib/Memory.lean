import Mathlib.Data.List.Range
import Mathlib.Data.List.GetD
import Mathlib.Tactic.Linarith
import Mathlib.Logic.Function.Basic

/-! Flat memory addressed from an arbitrary origin. A memory is a total function,
so a read behind the object it belongs to is a read of some unspecified cell;
`window` is a run of consecutive cells and `Holds` says what such a run contains. -/
namespace Memory

variable {α : Type*}

def window (m : ℕ → α) (a n : ℕ) : List α := (List.range n).map fun i => m (a+i)

@[simp] theorem window_zero (m : ℕ → α) (a : ℕ) : window m a 0 = [] := rfl

@[simp] theorem length_window (m : ℕ → α) (a n : ℕ) : (window m a n).length = n := by
  simp [window]

theorem window_succ (m : ℕ → α) (a n : ℕ) : window m a (n+1) = window m a n ++ [m (a+n)] := by
  simp [window,List.range_succ]

theorem window_add (m : ℕ → α) (a n k : ℕ) :
    window m a (n+k) = window m a n ++ window m (a+n) k := by
  simp [window,List.range_add,Nat.add_assoc]

theorem window_cons (m : ℕ → α) (a n : ℕ) : window m a (n+1) = m a :: window m (a+1) n := by
  rw [Nat.add_comm n 1,window_add]
  rfl

theorem window_congr {m m' : ℕ → α} {a b n : ℕ} (h : ∀ i < n, m (a+i) = m' (b+i)) :
    window m a n = window m' b n := by
  apply List.map_congr_left
  intro i hi
  exact h i (List.mem_range.mp hi)

@[simp] theorem getElem_window (m : ℕ → α) (a n i : ℕ) (hi : i < (window m a n).length) :
    (window m a n)[i] = m (a+i) := by
  simp [window]

theorem getD_window (m : ℕ → α) (a : ℕ) {n i : ℕ} (d : α) (hi : i < n) :
    (window m a n).getD i d = m (a+i) := by
  simp [List.getD_eq_getElem?_getD,hi]

theorem window_eq_iff {m m' : ℕ → α} {a b n : ℕ} :
    window m a n = window m' b n ↔ ∀ i < n, m (a+i) = m' (b+i) := by
  refine ⟨fun h i hi => ?_,window_congr⟩
  have hi' := congrArg (·[i]?) h
  simpa [hi] using hi'

/-- The cells from `a` on show the list `l`. -/
def Holds (m : ℕ → α) (a : ℕ) (l : List α) : Prop := window m a l.length = l

theorem holds_window (m : ℕ → α) (a n : ℕ) : Holds m a (window m a n) := by
  rw [Holds,length_window]

@[simp] theorem holds_nil (m : ℕ → α) (a : ℕ) : Holds m a [] := rfl

theorem holds_cons {m : ℕ → α} {a : ℕ} {x : α} {l : List α} :
    Holds m a (x::l) ↔ m a = x ∧ Holds m (a+1) l := by
  simp [Holds,window_cons]

theorem holds_append {m : ℕ → α} {a : ℕ} {l k : List α} :
    Holds m a (l++k) ↔ Holds m a l ∧ Holds m (a+l.length) k := by
  induction l generalizing a with
  | nil => simp
  | cons x l ih =>
    simp only [List.cons_append,holds_cons,ih,List.length_cons,and_assoc]
    rw [Nat.add_assoc,Nat.add_comm 1 l.length]

theorem Holds.congr {m m' : ℕ → α} {a b : ℕ} {l : List α} (h : Holds m a l)
    (hm : ∀ i < l.length, m (a+i) = m' (b+i)) : Holds m' b l := by
  rw [Holds,← window_congr hm]
  exact h

theorem holds_iff_of_const {m : ℕ → α} {a : ℕ} {x : α} {l : List α}
    (h : ∀ i < l.length, m (a+i) = x) : Holds m a l ↔ ∀ y ∈ l, y = x := by
  induction l generalizing a with
  | nil => simp
  | cons y l ih =>
    have h₀ : m a = x := h 0 (by simp)
    have hl : ∀ i < l.length, m (a+1+i) = x := by
      intro i hi
      rw [Nat.add_right_comm]
      exact h (i+1) (by simpa using hi)
    rw [holds_cons,ih hl,List.forall_mem_cons,h₀]
    exact and_congr_left fun _ => eq_comm

/-- Overwrite the `n` cells from `a` on with the first `n` cells of `f`. -/
def blit (m : ℕ → α) (a n : ℕ) (f : ℕ → α) : ℕ → α :=
  fun i => if a ≤ i ∧ i < a+n then f (i-a) else m i

@[simp] theorem blit_zero (m : ℕ → α) (a : ℕ) (f : ℕ → α) : blit m a 0 f = m := by
  funext i
  simp only [blit,Nat.add_zero,ite_eq_right_iff]
  omega

theorem blit_of_lt (m : ℕ → α) {a n i : ℕ} (f : ℕ → α) (hi : i < a) : blit m a n f i = m i := by
  simp only [blit,ite_eq_right_iff]
  omega

theorem blit_of_le (m : ℕ → α) {a n i : ℕ} (f : ℕ → α) (hi : a+n ≤ i) : blit m a n f i = m i := by
  simp only [blit,ite_eq_right_iff]
  omega

theorem blit_add (m : ℕ → α) (a : ℕ) {n i : ℕ} (f : ℕ → α) (hi : i < n) :
    blit m a n f (a+i) = f i := by
  simp [blit,hi]

theorem blit_blit (m : ℕ → α) (a n : ℕ) (f g : ℕ → α) : blit (blit m a n f) a n g = blit m a n g := by
  funext i
  simp only [blit]
  split_ifs <;> rfl

theorem window_blit (m : ℕ → α) (a n : ℕ) (f : ℕ → α) : window (blit m a n f) a n = window f 0 n :=
  window_congr fun i hi => by simp [blit_add m a f hi]

/-- The ranges, given by start and length, lie end to end from `a` to `b`. -/
def Tiles : ℕ → ℕ → List (ℕ × ℕ) → Prop
  | a, b, [] => a = b
  | a, b, t::ts => t.1 = a ∧ Tiles (a+t.2) b ts

theorem Tiles.le {a b : ℕ} {ts : List (ℕ × ℕ)} (h : Tiles a b ts) : a ≤ b := by
  induction ts generalizing a with
  | nil => exact Nat.le_of_eq h
  | cons t ts ih =>
    have := ih h.2
    omega

theorem Tiles.inside {a b : ℕ} {ts : List (ℕ × ℕ)} (h : Tiles a b ts) :
    ∀ t ∈ ts, a ≤ t.1 ∧ t.1+t.2 ≤ b := by
  induction ts generalizing a with
  | nil => simp
  | cons t ts ih =>
    obtain ⟨h₁,h₂⟩ := h
    have hle := h₂.le
    intro u hu
    rcases List.mem_cons.mp hu with rfl | hu
    · omega
    · have := ih h₂ u hu
      omega

theorem Tiles.disjoint {a b : ℕ} {ts : List (ℕ × ℕ)} (h : Tiles a b ts) :
    ts.Pairwise fun t u => t.1+t.2 ≤ u.1 := by
  induction ts generalizing a with
  | nil => exact .nil
  | cons t ts ih =>
    obtain ⟨h₁,h₂⟩ := h
    refine .cons (fun u hu => ?_) (ih h₂)
    have := (h₂.inside u hu).1
    omega

end Memory
