import Mathlib.Data.Set.Insert
import Mathlib.Logic.Function.Basic
import Mathlib.Data.List.Induction
import Mathlib.Tactic.Common

/-! Tables of growable rows: a partial map from keys to vectors that are lengthened on
demand, so that entries may arrive in any order and gaps are filled with a default.
`Stores` is the order-independent account of what such a table contains. -/
namespace RowTable

variable {κ β : Type*}

abbrev Table (κ β : Type*) := κ → Option (List β)

def entry (t : Table κ β) (k : κ) (i : ℕ) : Option β := (t k).bind (·[i]?)

def resize (d : β) (row : List β) (n : ℕ) : List β := row.take n ++ List.replicate (n-row.length) d

@[simp] theorem length_resize (d : β) (row : List β) (n : ℕ) : (resize d row n).length = n := by
  simp [resize]
  omega

theorem getElem?_resize (d : β) (row : List β) {n i : ℕ} (hi : i < row.length) (hn : i < n) :
    (resize d row n)[i]? = row[i]? := by
  rw [resize,List.getElem?_append_left (by rw [List.length_take]; omega),List.getElem?_take_of_lt hn]

variable [DecidableEq κ] [Inhabited β]

/-- The row `k` before an entry is stored at place `i`, long enough to hold it. -/
def rowFor (t : Table κ β) (k : κ) (i : ℕ) : List β :=
  let row := (t k).getD []
  if row.length ≤ i then resize default row (i+1) else row

def put (t : Table κ β) (k : κ) (i : ℕ) (v : β) : Table κ β :=
  Function.update t k (some ((rowFor t k i).set i v))

omit [DecidableEq κ] in
theorem lt_length_rowFor (t : Table κ β) (k : κ) (i : ℕ) : i < (rowFor t k i).length := by
  simp only [rowFor]
  split
  · simp
  · omega

omit [DecidableEq κ] in
theorem length_rowFor (t : Table κ β) (k : κ) (i : ℕ) :
    (rowFor t k i).length = max ((t k).getD []).length (i+1) := by
  simp only [rowFor]
  split
  · rw [length_resize]
    omega
  · omega

omit [DecidableEq κ] in
theorem getElem?_rowFor {t : Table κ β} {k : κ} {j : ℕ} {v : β} (h : entry t k j = some v) (i : ℕ) :
    (rowFor t k i)[j]? = some v := by
  obtain ⟨row,hrow,hj⟩ := Option.bind_eq_some_iff.mp h
  have hlt : j < row.length := (List.getElem?_eq_some_iff.mp hj).1
  simp only [rowFor,hrow,Option.getD_some]
  split
  · rw [getElem?_resize _ _ hlt (by omega),hj]
  · exact hj

omit [DecidableEq κ] in
theorem getElem?_rowFor_of_le {t : Table κ β} {k : κ} {i j : ℕ} (h : ((t k).getD []).length ≤ j)
    (hj : j < (rowFor t k i).length) : (rowFor t k i)[j]? = some default := by
  rw [length_rowFor] at hj
  simp only [rowFor]
  split
  · rw [resize,List.getElem?_append_right (by rw [List.length_take]; omega),List.getElem?_replicate,
      List.length_take,if_pos (by omega)]
  · omega

@[simp] theorem put_self (t : Table κ β) (k : κ) (i : ℕ) (v : β) :
    put t k i v k = some ((rowFor t k i).set i v) := by simp [put]

theorem put_of_ne (t : Table κ β) {k k' : κ} (i : ℕ) (v : β) (h : k' ≠ k) : put t k i v k' = t k' := by
  simp [put,h]

theorem entry_put_self (t : Table κ β) (k : κ) (i : ℕ) (v : β) : entry (put t k i v) k i = some v := by
  have h := lt_length_rowFor t k i
  simp [entry,h]

theorem entry_put_of_ne {t : Table κ β} {k k' : κ} {i j : ℕ} {v w : β} (h : entry t k' j = some w)
    (hne : k' ≠ k ∨ j ≠ i) : entry (put t k i v) k' j = some w := by
  by_cases hk : k' = k
  · subst hk
    have hj : i ≠ j := by
      rcases hne with hne | hne
      · exact absurd rfl hne
      · exact Ne.symm hne
    have hr := getElem?_rowFor h i
    simp [entry,List.getElem?_set_ne hj,hr]
  · rw [entry,put_of_ne t i v hk]
    exact h

/-- The table contains the records `R`, and every row of it ends with a record. -/
structure Stores (t : Table κ β) (R : Set (κ × ℕ × β)) : Prop where
  entry : ∀ k i v, (k,i,v) ∈ R → entry t k i = some v
  last : ∀ k row, t k = some row → ∃ i v, (k,i,v) ∈ R ∧ row.length = i+1

omit [DecidableEq κ] [Inhabited β] in
theorem stores_empty : Stores (fun _ => none : Table κ β) ∅ :=
  ⟨fun _ _ _ h => absurd h (Set.notMem_empty _),fun _ _ h => by cases h⟩

/-- A record with a fresh place can be stored at any time. -/
theorem Stores.put {t : Table κ β} {R : Set (κ × ℕ × β)} (h : Stores t R) {k : κ} {i : ℕ} (v : β)
    (hfresh : ∀ w, (k,i,w) ∉ R) : Stores (put t k i v) (insert (k,i,v) R) where
  entry k' j w hw := by
    rcases Set.mem_insert_iff.mp hw with he | hold
    · cases he
      exact entry_put_self t k i v
    · refine entry_put_of_ne (h.entry k' j w hold) ?_
      by_contra hc
      simp only [not_or,not_not] at hc
      obtain ⟨rfl,rfl⟩ := hc
      exact hfresh w hold
  last k' row hrow := by
    by_cases hk : k' = k
    · subst hk
      rw [put_self,Option.some.injEq] at hrow
      rw [← hrow,List.length_set]
      cases ht : t k' with
      | none => exact ⟨i,v,Set.mem_insert _ _,by simp [rowFor,ht]⟩
      | some old =>
        simp only [rowFor,ht,Option.getD_some]
        split
        · exact ⟨i,v,Set.mem_insert _ _,by simp⟩
        · obtain ⟨j,w,hw,hl⟩ := h.last k' old ht
          exact ⟨j,w,Set.mem_insert_of_mem _ hw,hl⟩
    · rw [put_of_ne t i v hk] at hrow
      obtain ⟨j,w,hw,hl⟩ := h.last k' row hrow
      exact ⟨j,w,Set.mem_insert_of_mem _ hw,hl⟩

omit [DecidableEq κ] [Inhabited β] in
theorem Stores.eq_none {t : Table κ β} {R : Set (κ × ℕ × β)} (h : Stores t R) {k : κ}
    (hk : ∀ i v, (k,i,v) ∉ R) : t k = none := by
  cases ht : t k with
  | none => rfl
  | some row =>
    obtain ⟨i,v,hR,-⟩ := h.last k row ht
    exact absurd hR (hk i v)

omit [DecidableEq κ] [Inhabited β] in
/-- A key whose records occupy exactly the places below `n` has the row of these records. -/
theorem Stores.row {t : Table κ β} {R : Set (κ × ℕ × β)} (h : Stores t R) {k : κ} {n : ℕ} (hn : 0 < n)
    {f : ℕ → β} (hf : ∀ i < n, (k,i,f i) ∈ R) (hlt : ∀ i v, (k,i,v) ∈ R → i < n) :
    t k = some ((List.range n).map f) := by
  obtain ⟨row,hrow,-⟩ := Option.bind_eq_some_iff.mp (h.entry k 0 _ (hf 0 hn))
  have hlen : row.length = n := by
    obtain ⟨i,v,hR,hl⟩ := h.last k row hrow
    obtain ⟨row',hrow',hi⟩ := Option.bind_eq_some_iff.mp (h.entry k (n-1) _ (hf (n-1) (by omega)))
    rw [hrow,Option.some.injEq] at hrow'
    subst hrow'
    have hge := (List.getElem?_eq_some_iff.mp hi).1
    have hle := hlt i v hR
    omega
  rw [hrow]
  congr 1
  apply List.ext_getElem?
  intro i
  rcases Nat.lt_or_ge i n with hi | hi
  · obtain ⟨row',hrow',he⟩ := Option.bind_eq_some_iff.mp (h.entry k i _ (hf i hi))
    rw [hrow,Option.some.injEq] at hrow'
    subst hrow'
    simp [he,hi]
  · rw [List.getElem?_eq_none (by omega),List.getElem?_eq_none (by simpa using hi)]

/-! ### Records with repeated places -/

def fill (rs : List (κ × ℕ × β)) : Table κ β :=
  rs.foldl (fun t r => put t r.1 r.2.1 r.2.2) fun _ => none

omit [Inhabited β] in
def lastAt (rs : List (κ × ℕ × β)) (k : κ) (i : ℕ) : Option β :=
  (rs.reverse.find? fun r => r.1 = k ∧ r.2.1 = i).map fun r => r.2.2

theorem fill_concat (rs : List (κ × ℕ × β)) (r : κ × ℕ × β) :
    fill (rs ++ [r]) = put (fill rs) r.1 r.2.1 r.2.2 := by
  rw [fill,List.foldl_append]
  rfl

omit [Inhabited β] in
theorem lastAt_concat (rs : List (κ × ℕ × β)) (r : κ × ℕ × β) (k : κ) (i : ℕ) :
    lastAt (rs ++ [r]) k i = if r.1 = k ∧ r.2.1 = i then some r.2.2 else lastAt rs k i := by
  rw [lastAt,List.reverse_append,List.reverse_singleton,List.singleton_append,List.find?_cons]
  by_cases h : r.1 = k ∧ r.2.1 = i
  · simp [h]
  · simp [h,lastAt]

omit [Inhabited β] in
theorem lastAt_eq_none {rs : List (κ × ℕ × β)} {k : κ} {i : ℕ} (h : ∀ r ∈ rs, ¬ (r.1 = k ∧ r.2.1 = i)) :
    lastAt rs k i = none := by
  rw [lastAt,Option.map_eq_none_iff,List.find?_eq_none]
  simpa using h

/-- The row of a key that occurs among the records: it ends with the largest place, each place has
its last record, and the places without one the default. -/
structure FilledRow (rs : List (κ × ℕ × β)) (k : κ) (row : List β) : Prop where
  last : ∃ r ∈ rs, r.1 = k ∧ r.2.1+1 = row.length
  inside : ∀ r ∈ rs, r.1 = k → r.2.1 < row.length
  entry : ∀ i < row.length, row[i]? = some ((lastAt rs k i).getD default)

theorem fill_eq_none_iff (rs : List (κ × ℕ × β)) (k : κ) : fill rs k = none ↔ ∀ r ∈ rs, r.1 ≠ k := by
  induction rs using List.reverseRecOn with
  | nil => simp [fill]
  | append_singleton rs r ih =>
    rw [fill_concat,List.forall_mem_append,List.forall_mem_singleton]
    by_cases hk : k = r.1
    · subst hk
      rw [put_self]
      exact iff_of_false (by simp) fun h => h.2 rfl
    · rw [put_of_ne _ _ _ hk,ih]
      exact ⟨fun h => ⟨h,Ne.symm hk⟩,fun h => h.1⟩

theorem filledRow_fill {rs : List (κ × ℕ × β)} {k : κ} {row : List β} (h : fill rs k = some row) :
    FilledRow rs k row := by
  induction rs using List.reverseRecOn generalizing row with
  | nil => cases h
  | append_singleton rs r ih =>
    rw [fill_concat] at h
    by_cases hk : k = r.1
    · subst hk
      rw [put_self,Option.some.injEq] at h
      have hlen : row.length = max ((fill rs r.1).getD []).length (r.2.1+1) := by
        rw [← h,List.length_set,length_rowFor]
      have hold : ∀ r' ∈ rs, r'.1 = r.1 → r'.2.1 < ((fill rs r.1).getD []).length := by
        intro r' hr' he
        cases hrow : fill rs r.1 with
        | none => exact absurd he ((fill_eq_none_iff rs r.1).mp hrow r' hr')
        | some old => exact (ih hrow).inside r' hr' he
      refine ⟨?_,fun r' hr' he => ?_,fun i hi => ?_⟩
      · rcases Nat.lt_or_ge (r.2.1+1) ((fill rs r.1).getD []).length with hlt | hge
        · cases hrow : fill rs r.1 with
          | none => simp [hrow] at hlt
          | some old =>
            obtain ⟨r',hr',he,hl⟩ := (ih hrow).last
            refine ⟨r',List.mem_append_left _ hr',he,?_⟩
            rw [hrow,Option.getD_some] at hlt hlen
            omega
        · exact ⟨r,by simp,rfl,by omega⟩
      · rcases List.mem_append.mp hr' with hr' | hr'
        · have := hold r' hr' he
          omega
        · rw [List.mem_singleton] at hr'
          subst hr'
          omega
      · rw [lastAt_concat,← h]
        by_cases hi' : r.2.1 = i
        · subst hi'
          rw [if_pos ⟨rfl,rfl⟩,List.getElem?_set_self (lt_length_rowFor _ _ _)]
          rfl
        · rw [if_neg (fun hc => hi' hc.2),List.getElem?_set_ne hi']
          rcases Nat.lt_or_ge i ((fill rs r.1).getD []).length with hlt | hge
          · cases hrow : fill rs r.1 with
            | none => simp [hrow] at hlt
            | some old =>
              rw [hrow,Option.getD_some] at hlt
              refine getElem?_rowFor ?_ r.2.1
              rw [RowTable.entry,hrow,Option.bind_some]
              exact (ih hrow).entry i hlt
          · have hnone : lastAt rs r.1 i = none := by
              refine lastAt_eq_none fun r' hr' hc => ?_
              have := hold r' hr' hc.1
              omega
            rw [hnone,Option.getD_none]
            exact getElem?_rowFor_of_le hge (by rw [length_rowFor,← hlen]; exact hi)
    · rw [put_of_ne _ _ _ hk] at h
      obtain ⟨⟨r',hr',he,hl⟩,hinside,hentry⟩ := ih h
      refine ⟨⟨r',List.mem_append_left _ hr',he,hl⟩,fun r₁ hr₁ he₁ => ?_,fun i hi => ?_⟩
      · rcases List.mem_append.mp hr₁ with hr₁ | hr₁
        · exact hinside r₁ hr₁ he₁
        · rw [List.mem_singleton] at hr₁
          exact absurd (hr₁ ▸ he₁).symm hk
      · rw [lastAt_concat,if_neg (fun hc => hk hc.1.symm)]
        exact hentry i hi

end RowTable
