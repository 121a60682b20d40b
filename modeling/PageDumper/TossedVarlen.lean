import PageDumper.ToastPointer

/-! The loop of `fetch_data` that tosses the length word of an uncompressed value, with the
indices it uses. Each iteration moves four bytes although the index advances by one, so the
value is right in the end, but the last iterations read behind the vector. -/
namespace PageDumper
open Memory

/-- The vector `result`, and the accesses to its elements, newest first. -/
structure Tossing where
  result : ℕ → UInt8
  log : List Access

namespace Tossing

/-- `result[i+j] = result[i+j+4]`. The index is an `unsigned int`. -/
def move (i j : ℕ) (s : Tossing) : Tossing :=
  { result := Function.update s.result (i+j) (s.result ((i+j+4) % 2^32)),
    log := .store (i+j) :: .load ((i+j+4) % 2^32) :: s.log }

def iteration (s : Tossing) (i : ℕ) : Tossing := (((s.move i 0).move i 1).move i 2).move i 3

theorem iteration_result (s : Tossing) (i : ℕ) : (s.iteration i).result = tossStep s.result i := rfl

theorem mem_log_move {i j : ℕ} {s : Tossing} {a : Access} :
    a ∈ (s.move i j).log ↔ a ∈ s.log ∨ a = .load ((i+j+4) % 2^32) ∨ a = .store (i+j) := by
  simp only [move,List.mem_cons]
  tauto

theorem mem_log_iteration {i : ℕ} {s : Tossing} {a : Access} :
    a ∈ (s.iteration i).log ↔
      a ∈ s.log ∨ ∃ j < 4, a = .load ((i+j+4) % 2^32) ∨ a = .store (i+j) := by
  simp only [iteration,mem_log_move]
  constructor
  · rintro ((((h | h) | h) | h) | h)
    · exact .inl h
    · exact .inr ⟨0,by omega,h⟩
    · exact .inr ⟨1,by omega,h⟩
    · exact .inr ⟨2,by omega,h⟩
    · exact .inr ⟨3,by omega,h⟩
  · rintro (h | ⟨j,hj,h⟩)
    · exact .inl (.inl (.inl (.inl h)))
    · obtain rfl | rfl | rfl | rfl : j = 0 ∨ j = 1 ∨ j = 2 ∨ j = 3 := by omega
      · exact .inl (.inl (.inl (.inr h)))
      · exact .inl (.inl (.inr h))
      · exact .inl (.inr h)
      · exact .inr h

end Tossing

def toss (result : ℕ → UInt8) (size : ℕ) : Tossing :=
  (List.range (size-4)).foldl Tossing.iteration ⟨result,[]⟩

/-- The log is a ghost: the bytes are those that `fetch_data` goes on with. -/
theorem toss_result (result : ℕ → UInt8) (size : ℕ) :
    (toss result size).result = tossVarlen result size := by
  rw [toss,tossVarlen]
  induction size-4 with
  | zero => rfl
  | succ k ih =>
    rw [List.range_succ,List.foldl_append,List.foldl_append,← ih]
    exact Tossing.iteration_result _ k

theorem mem_log_toss {result : ℕ → UInt8} {size : ℕ} {a : Access} :
    a ∈ (toss result size).log ↔
      ∃ i < size-4, ∃ j < 4, a = .load ((i+j+4) % 2^32) ∨ a = .store (i+j) := by
  rw [toss]
  induction size-4 with
  | zero => simp
  | succ k ih =>
    rw [List.range_succ,List.foldl_append]
    simp only [List.foldl_cons,List.foldl_nil]
    rw [Tossing.mem_log_iteration,ih]
    constructor
    · rintro (⟨i,hi,h⟩ | h)
      · exact ⟨i,by omega,h⟩
      · exact ⟨k,by omega,h⟩
    · rintro ⟨i,hi,h⟩
      rcases Nat.lt_succ_iff_lt_or_eq.mp hi with hi | rfl
      · exact .inl ⟨i,hi,h⟩
      · exact .inr h

theorem store_mem_toss {result : ℕ → UInt8} {size a : ℕ} :
    .store a ∈ (toss result size).log ↔ ∃ i < size-4, ∃ j < 4, a = i+j := by
  simp [mem_log_toss]

theorem load_mem_toss {result : ℕ → UInt8} {size a : ℕ} :
    .load a ∈ (toss result size).log ↔ ∃ i < size-4, ∃ j < 4, a = (i+j+4) % 2^32 := by
  simp [mem_log_toss]

theorem toss_store_lt {result : ℕ → UInt8} {size a : ℕ} (h : .store a ∈ (toss result size).log) :
    a+1 < size := by
  obtain ⟨i,hi,j,hj,rfl⟩ := store_mem_toss.mp h
  omega

theorem toss_load_lt {result : ℕ → UInt8} {size a : ℕ} (h : .load a ∈ (toss result size).log) :
    a < size+3 := by
  obtain ⟨i,hi,j,hj,rfl⟩ := load_mem_toss.mp h
  have := Nat.mod_le (i+j+4) (2^32)
  omega

/-- As soon as there is a byte to move, the last iteration reads the element behind the end. -/
theorem load_size_mem_toss (result : ℕ → UInt8) {size : ℕ} (h : 5 ≤ size) (hw : size < 2^32) :
    .load size ∈ (toss result size).log := by
  refine load_mem_toss.mpr ⟨size-5,by omega,1,by omega,?_⟩
  rw [Nat.mod_eq_of_lt (by omega)]
  omega

def tossed (result : ℕ → UInt8) (size : ℕ) : List UInt8 := window (toss result size).result 0 (size-4)

theorem tossed_eq (result : ℕ → UInt8) {size : ℕ} (hw : size < 2^32) :
    tossed result size = window result 4 (size-4) := by
  rw [tossed,toss_result,window_tossVarlen result hw]

/-- For every vector of an `unsigned` size with room for the length word, the loop leaves
exactly the bytes behind that word and uses only indices of the vector if and only if there is
no such byte. -/
theorem tossed_exactWithin_iff (result : ℕ → UInt8) (size : UInt32) (h : 4 ≤ size.toNat) :
    (tossed result size.toNat = window result 4 (size.toNat-4) ∧
      ∀ i, .load i ∈ (toss result size.toNat).log ∨ .store i ∈ (toss result size.toNat).log →
        i < size.toNat) ↔ size.toNat = 4 := by
  have hw := size.toNat_lt
  constructor
  · rintro ⟨-,hin⟩
    by_contra hne
    have := hin _ (.inl (load_size_mem_toss result (by omega) hw))
    omega
  · intro hsize
    refine ⟨tossed_eq result hw,fun i hi => ?_⟩
    rcases hi with hi | hi
    · obtain ⟨k,hk,-⟩ := load_mem_toss.mp hi
      omega
    · have := toss_store_lt hi
      omega

theorem tossed_exactWithin_empty :
    (tossed (fun _ => 0) 4 = window (fun _ => 0) 4 0 ∧
      ∀ i, .load i ∈ (toss (fun _ => 0) 4).log ∨ .store i ∈ (toss (fun _ => 0) 4).log → i < 4) ↔
      (4 : UInt32).toNat = 4 :=
  tossed_exactWithin_iff (fun _ => 0) 4 (by decide)

theorem not_tossed_within_five :
    (toss (fun _ => 0) 5).log = [.store 3,.load 7,.store 2,.load 6,.store 1,.load 5,.store 0,.load 4] ∧
    ¬ (tossed (fun _ => 0) 5 = window (fun _ => 0) 4 1 ∧
      ∀ i, .load i ∈ (toss (fun _ => 0) 5).log ∨ .store i ∈ (toss (fun _ => 0) 5).log → i < 5) := by
  have hlog : (toss (fun _ => 0) 5).log =
      [.store 3,.load 7,.store 2,.load 6,.store 1,.load 5,.store 0,.load 4] := rfl
  refine ⟨hlog,fun h => ?_⟩
  have := h.2 7 (.inl (by rw [hlog]; decide))
  omega

end PageDumper
