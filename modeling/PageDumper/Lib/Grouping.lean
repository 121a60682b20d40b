import Mathlib.Data.List.Basic
import Mathlib.Tactic.Common

/-! Cutting a sequence into groups of a fixed size, and emitting such groups as text
one row at a time. The row-at-a-time emitter knows only how many rows it has already
written, yet it produces the grouped text. -/
namespace Grouping

variable {α β : Type*}

/-- Consecutive groups of `n`, the last one possibly shorter. -/
def groupsOf (n : ℕ) : List α → List (List α)
  | [] => []
  | a::l => (a::l.take (n-1)) :: groupsOf n (l.drop (n-1))
termination_by l => l.length
decreasing_by simp only [List.length_drop,List.length_cons]; omega

@[simp] theorem groupsOf_nil (n : ℕ) : groupsOf n ([] : List α) = [] := by
  rw [groupsOf]

theorem groupsOf_cons (n : ℕ) (a : α) (l : List α) :
    groupsOf n (a::l) = (a::l.take (n-1)) :: groupsOf n (l.drop (n-1)) := by
  rw [groupsOf]

theorem groupsOf_induction (n : ℕ) {P : List α → Prop} (nil : P [])
    (group : ∀ a l, P (l.drop (n-1)) → P (a::l)) (l : List α) : P l := by
  induction l using groupsOf.induct n with
  | case1 => exact nil
  | case2 a l ih => exact group a l ih

theorem flatten_groupsOf (n : ℕ) (l : List α) : (groupsOf n l).flatten = l := by
  induction l using groupsOf_induction n with
  | nil => simp
  | group a l ih => rw [groupsOf_cons,List.flatten_cons,ih,List.cons_append,List.take_append_drop]

theorem length_of_mem_groupsOf {n : ℕ} (hn : 0 < n) {l g : List α} (h : g ∈ groupsOf n l) :
    1 ≤ g.length ∧ g.length ≤ n := by
  induction l using groupsOf_induction n with
  | nil => simp at h
  | group a l ih =>
    rw [groupsOf_cons,List.mem_cons] at h
    rcases h with rfl | h
    · rw [List.length_cons,List.length_take]
      omega
    · exact ih h

theorem length_of_mem_dropLast_groupsOf {n : ℕ} (hn : 0 < n) {l g : List α}
    (h : g ∈ (groupsOf n l).dropLast) : g.length = n := by
  induction l using groupsOf_induction n with
  | nil => simp at h
  | group a l ih =>
    rw [groupsOf_cons] at h
    rcases Nat.lt_or_ge (n-1) l.length with hlt | hge
    · have hne : groupsOf n (l.drop (n-1)) ≠ [] := by
        cases hd : l.drop (n-1) with
        | nil =>
          rw [List.drop_eq_nil_iff] at hd
          omega
        | cons b k => simp [groupsOf_cons]
      rw [List.dropLast_cons_of_ne_nil hne,List.mem_cons] at h
      rcases h with rfl | h
      · rw [List.length_cons,List.length_take]
        omega
      · exact ih h
    · rw [List.drop_of_length_le hge,groupsOf_nil] at h
      simp at h

theorem groupsOf_append {n : ℕ} (hn : 0 < n) {l : List α} (h : n ∣ l.length) (k : List α) :
    groupsOf n (l ++ k) = groupsOf n l ++ groupsOf n k := by
  induction l using groupsOf_induction n with
  | nil => simp
  | group a l ih =>
    have hlen : n-1 ≤ l.length := by
      have hle := Nat.le_of_dvd (by simp) h
      rw [List.length_cons] at hle
      omega
    have hrest : n ∣ (l.drop (n-1)).length := by
      have hsub : (l.drop (n-1)).length = (a::l).length-n := by
        rw [List.length_drop,List.length_cons]
        omega
      exact hsub ▸ Nat.dvd_sub h (Nat.dvd_refl n)
    rw [List.cons_append,groupsOf_cons,groupsOf_cons,List.take_append_of_le_length hlen,
      List.drop_append_of_le_length hlen,ih hrest,List.cons_append]

theorem groupsOf_of_length_le {n : ℕ} {a : α} {l : List α} (h : (a::l).length ≤ n) :
    groupsOf n (a::l) = [a::l] := by
  have hl : l.length ≤ n-1 := by
    rw [List.length_cons] at h
    omega
  rw [groupsOf_cons,List.take_of_length_le hl,List.drop_of_length_le hl,groupsOf_nil]

section Emitting

variable (n : ℕ) (header sep close : List β)

def statement (g : List (List β)) : List β := header ++ sep.intercalate g ++ close

def script (rows : List (List β)) : List β :=
  (groupsOf n rows).flatMap (statement header sep close)

/-- What the emitter puts before the row that follows `k` written rows. -/
def lead (k : ℕ) : List β :=
  if k % n = 0 then (if k ≠ 0 then close else []) ++ header else sep

/-- The emitter's output for `rows` after `k` rows have been written. -/
def emit (k : ℕ) : List (List β) → List β
  | [] => []
  | r::rs => lead n header sep close k ++ r ++ emit (k+1) rs

theorem emit_append (k : ℕ) (rs ts : List (List β)) :
    emit n header sep close k (rs++ts) =
      emit n header sep close k rs ++ emit n header sep close (k+rs.length) ts := by
  induction rs generalizing k with
  | nil => simp [emit]
  | cons r rs ih => simp [emit,ih,Nat.add_assoc,Nat.add_comm 1]

theorem emit_within (k j : ℕ) (hk : k % n = 0) (hj : 0 < j) (rs : List (List β))
    (hr : j+rs.length ≤ n) :
    emit n header sep close (k+j) rs = rs.flatMap fun r => sep ++ r := by
  induction rs generalizing j with
  | nil => rfl
  | cons r rs ih =>
    rw [List.length_cons] at hr
    have hm : ¬ (k+j) % n = 0 := by
      rw [Nat.add_mod,hk,Nat.zero_add,Nat.mod_mod,Nat.mod_eq_of_lt (by omega)]
      omega
    have h := ih (j+1) (by omega) (by omega)
    rw [← Nat.add_assoc] at h
    simp [emit,lead,hm,h]

theorem intercalate_cons (r : List β) (rs : List (List β)) :
    sep.intercalate (r::rs) = r ++ rs.flatMap fun t => sep ++ t := by
  induction rs generalizing r with
  | nil => simp
  | cons t rs ih =>
    rw [List.intercalate_cons_cons,ih,List.flatMap_cons]
    simp only [List.append_assoc]

theorem emit_group (k : ℕ) (hk : k % n = 0) (r : List β) (rs : List (List β))
    (hr : (r::rs).length ≤ n) :
    emit n header sep close k (r::rs) =
      (if k ≠ 0 then close else []) ++ header ++ sep.intercalate (r::rs) := by
  rw [List.length_cons,Nat.add_comm] at hr
  have h := emit_within n header sep close k 1 hk Nat.one_pos rs hr
  rw [intercalate_cons,emit,h,lead,if_pos hk,List.append_assoc]

/-- Closing the emitter's output at a group boundary gives the grouped text. -/
theorem emit_close (hn : 0 < n) (rows : List (List β)) (k : ℕ) (hk : k % n = 0) (hr : rows ≠ []) :
    emit n header sep close k rows ++ close =
      (if k ≠ 0 then close else []) ++ script n header sep close rows := by
  induction rows using groupsOf_induction n generalizing k with
  | nil => exact absurd rfl hr
  | group r rs ih =>
    have hsplit : r::rs = (r::rs.take (n-1)) ++ rs.drop (n-1) := by simp
    have hlen : (r::rs.take (n-1)).length ≤ n := by
      rw [List.length_cons,List.length_take]
      omega
    have hg := emit_group n header sep close k hk r _ hlen
    rcases Nat.lt_or_ge (n-1) rs.length with hlt | hge
    · -- a full group: the rest starts at the next boundary and closes this one
      have hfull : (r::rs.take (n-1)).length = n := by
        rw [List.length_cons,List.length_take]
        omega
      have hne : rs.drop (n-1) ≠ [] := by
        rw [Ne,List.drop_eq_nil_iff]
        omega
      have hrest := ih (k+n) (by rw [Nat.add_mod_right]; exact hk) hne
      rw [if_pos (by omega)] at hrest
      calc emit n header sep close k (r::rs) ++ close
          = emit n header sep close k (r::rs.take (n-1)) ++
              (emit n header sep close (k+n) (rs.drop (n-1)) ++ close) := by
            conv_lhs => rw [hsplit,emit_append,hfull,List.append_assoc]
        _ = _ := by
            rw [hg,hrest]
            simp [script,groupsOf_cons,statement]
    · have ht := List.take_of_length_le hge
      have hd := List.drop_of_length_le hge
      rw [ht] at hg
      rw [hg]
      simp [script,groupsOf_cons,statement,ht,hd]

/-- The emitter writes the grouped text of any nonempty sequence of rows. -/
theorem emit_eq_script (hn : 0 < n) {rows : List (List β)} (hr : rows ≠ []) :
    emit n header sep close 0 rows ++ close = script n header sep close rows := by
  have h := emit_close n header sep close hn rows 0 (Nat.zero_mod n) hr
  simpa using h

end Emitting

end Grouping
