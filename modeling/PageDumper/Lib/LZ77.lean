import PageDumper.Lib.Memory

/-! Lempel-Ziv item sequences over an arbitrary alphabet: what a literal and a
back-reference contribute to the output, and when every reference stays inside the
output produced before it. -/
namespace LZ77
open Memory

variable {α : Type*}

inductive Item (α : Type*)
  | literal (a : α)
  | backref (off len : ℕ)
  deriving DecidableEq

def Item.size : Item α → ℕ
  | .literal _ => 1
  | .backref _ len => len

def Item.isBackref : Item α → Bool
  | .literal _ => false
  | .backref _ _ => true

variable [Inhabited α]

/-- Append `n` symbols, each the one `off` places before the current end. The source
and the target may overlap. -/
def copyRun (off : ℕ) : ℕ → List α → List α
  | 0, out => out
  | n+1, out => copyRun off n (out ++ [out.getD (out.length-off) default])

def Item.emit (out : List α) : Item α → List α
  | .literal a => out ++ [a]
  | .backref off len => copyRun off len out

def expand (items : List (Item α)) : List α := items.foldl Item.emit []

omit [Inhabited α] in
/-- Every back-reference points at least one and at most `n` plus the preceding output
symbols back, where `n` symbols precede the sequence. -/
def ValidFrom : ℕ → List (Item α) → Prop
  | _, [] => True
  | n, .literal _::items => ValidFrom (n+1) items
  | n, .backref off len::items => 1 ≤ off ∧ off ≤ n ∧ ValidFrom (n+len) items

omit [Inhabited α] in
abbrev Valid (items : List (Item α)) : Prop := ValidFrom 0 items

@[simp] theorem length_copyRun (off n : ℕ) (out : List α) :
    (copyRun off n out).length = out.length+n := by
  induction n generalizing out with
  | zero => rfl
  | succ n ih =>
    rw [copyRun,ih,List.length_append,List.length_singleton]
    omega

@[simp] theorem length_emit (out : List α) (i : Item α) :
    (i.emit out).length = out.length+i.size := by
  cases i <;> simp [Item.emit,Item.size]

theorem length_foldl_emit (items : List (Item α)) (out : List α) :
    (items.foldl Item.emit out).length = out.length+(items.map Item.size).sum := by
  induction items generalizing out with
  | nil => rfl
  | cons i items ih => simp [ih,Nat.add_assoc]

theorem prefix_copyRun (off n : ℕ) (out : List α) : out <+: copyRun off n out := by
  induction n generalizing out with
  | zero => exact List.prefix_rfl
  | succ n ih => exact (List.prefix_append _ _).trans (ih _)

theorem prefix_foldl_emit (items : List (Item α)) (out : List α) :
    out <+: items.foldl Item.emit out := by
  induction items generalizing out with
  | nil => exact List.prefix_rfl
  | cons i items ih =>
    have hi : out <+: i.emit out := by
      cases i with
      | literal a => exact List.prefix_append _ _
      | backref off len => exact prefix_copyRun off len out
    exact hi.trans (ih _)

theorem expand_prefix (is js : List (Item α)) : expand is <+: expand (is ++ js) := by
  rw [expand,expand,List.foldl_append]
  exact prefix_foldl_emit js _

theorem length_expand (items : List (Item α)) :
    (expand items).length = (items.map Item.size).sum := by
  simp [expand,length_foldl_emit]

omit [Inhabited α] in
theorem validFrom_append (n : ℕ) (is js : List (Item α)) :
    ValidFrom n (is++js) ↔ ValidFrom n is ∧ ValidFrom (n+(is.map Item.size).sum) js := by
  induction is generalizing n with
  | nil => simp [ValidFrom]
  | cons i is ih => cases i <;> simp [ValidFrom,ih,Item.size,Nat.add_assoc,and_assoc]

theorem copyRun_one (a : α) (n k : ℕ) :
    copyRun 1 n (List.replicate (k+1) a) = List.replicate (k+1+n) a := by
  induction n generalizing k with
  | zero => rfl
  | succ n ih =>
    have hlast : (List.replicate (k+1) a).getD ((List.replicate (k+1) a).length-1) default = a := by
      simp
    rw [copyRun,hlast,← List.replicate_succ',ih,Nat.add_right_comm,Nat.add_assoc]

/-- Writing the copied symbols one by one into memory appends the run to the window. -/
theorem window_copy_cell (m : ℕ → α) {n off : ℕ} (h₁ : 1 ≤ off) (h₂ : off ≤ n) :
    window (Function.update m n (m (n-off))) 0 (n+1) =
      window m 0 n ++ [(window m 0 n).getD ((window m 0 n).length-off) default] := by
  have hcell : (window m 0 n).getD ((window m 0 n).length-off) default = m (n-off) := by
    rw [length_window,getD_window m 0 default (by omega),Nat.zero_add]
  have hw : window (Function.update m n (m (n-off))) 0 n = window m 0 n :=
    window_congr fun i hi => Function.update_of_ne (by omega) _ _
  rw [window_succ,hw,hcell,Nat.zero_add,Function.update_self]

theorem copyRun_window {m : ℕ → α} {n off len : ℕ} (h₁ : 1 ≤ off) (h₂ : off ≤ n)
    (h : ∀ i < len, m (n+i) = m (n-off+i)) : copyRun off len (window m 0 n) = window m 0 (n+len) := by
  induction len generalizing n with
  | zero => rfl
  | succ len ih =>
    have hfirst : (window m 0 n).getD ((window m 0 n).length-off) default = m (0+n) := by
      rw [length_window,getD_window m 0 default (by omega),Nat.zero_add,Nat.zero_add]
      exact (h 0 (by omega)).symm
    have hnext : ∀ i < len, m (n+1+i) = m (n+1-off+i) := by
      intro i hi
      have hi' := h (i+1) (by omega)
      rwa [← Nat.add_assoc,Nat.add_right_comm n i 1,← Nat.add_assoc,Nat.add_right_comm (n-off) i 1,
        ← Nat.sub_add_comm h₂] at hi'
    rw [copyRun,hfirst,← window_succ,ih (by omega) hnext,Nat.add_right_comm,Nat.add_assoc]

end LZ77
