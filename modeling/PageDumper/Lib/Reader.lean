import PageDumper.Lib.Memory

/-! An input stream over a finite file with a sticky failure bit: a read that meets
the end of the file delivers what is left and sets the bit, and while the bit is
set neither seeking nor reading has any effect. -/
namespace Reader
open Memory

variable {α : Type*}

structure File (α : Type*) where
  size : ℕ
  byte : ℕ → α

structure Stream (α : Type*) where
  file : File α
  pos : ℕ
  failbit : Bool

def Stream.opened (f : File α) : Stream α := ⟨f,0,false⟩

def Stream.seekg (s : Stream α) (p : ℕ) : Stream α :=
  if s.failbit then s else { s with pos := p }

/-- Number of bytes that a read of `n` delivers. -/
def Stream.gcount (s : Stream α) (n : ℕ) : ℕ :=
  if s.failbit then 0 else min n (s.file.size-s.pos)

def Stream.read (s : Stream α) (buffer : ℕ → α) (a n : ℕ) : (ℕ → α) × Stream α :=
  (blit buffer a (s.gcount n) fun i => s.file.byte (s.pos+i),
    { s with pos := s.pos+s.gcount n, failbit := s.failbit || decide (s.gcount n < n) })

@[simp] theorem seekg_file (s : Stream α) (p : ℕ) : (s.seekg p).file = s.file := by
  unfold Stream.seekg
  split <;> rfl

@[simp] theorem seekg_failbit (s : Stream α) (p : ℕ) : (s.seekg p).failbit = s.failbit := by
  unfold Stream.seekg
  split <;> simp_all

theorem seekg_pos {s : Stream α} (hs : s.failbit = false) (p : ℕ) : (s.seekg p).pos = p := by
  simp [Stream.seekg,hs]

@[simp] theorem read_file (s : Stream α) (m : ℕ → α) (a n : ℕ) : (s.read m a n).2.file = s.file := rfl

theorem read_failbit (s : Stream α) (m : ℕ → α) (a n : ℕ) :
    (s.read m a n).2.failbit = (s.failbit || decide (s.gcount n < n)) := rfl

theorem gcount_le (s : Stream α) (n : ℕ) : s.gcount n ≤ n := by
  unfold Stream.gcount
  split <;> omega

def File.Inside (f : File α) (p n : ℕ) : Prop := n = 0 ∨ p+n ≤ f.size

instance (f : File α) (p n : ℕ) : Decidable (f.Inside p n) :=
  inferInstanceAs (Decidable (n = 0 ∨ p+n ≤ f.size))

/-- Seek to `p`, then read `n` bytes: the access pattern of every caller. -/
def Stream.readAt (s : Stream α) (p : ℕ) (buffer : ℕ → α) (a n : ℕ) : (ℕ → α) × Stream α :=
  (s.seekg p).read buffer a n

@[simp] theorem readAt_file (s : Stream α) (p : ℕ) (m : ℕ → α) (a n : ℕ) :
    (s.readAt p m a n).2.file = s.file := by simp [Stream.readAt]

theorem readAt_failbit {s : Stream α} (hs : s.failbit = false) (p : ℕ) (m : ℕ → α) (a n : ℕ) :
    (s.readAt p m a n).2.failbit = decide (¬ s.file.Inside p n) := by
  simp only [Stream.readAt,read_failbit,seekg_failbit,hs,Bool.false_or,decide_eq_decide]
  simp only [Stream.gcount,seekg_failbit,hs,seekg_file,seekg_pos hs,File.Inside]
  simp only [Bool.false_eq_true,if_false]
  omega

theorem readAt_of_fail {s : Stream α} (hs : s.failbit = true) (p : ℕ) (m : ℕ → α) (a n : ℕ) :
    (s.readAt p m a n).1 = m := by
  simp [Stream.readAt,Stream.read,Stream.gcount,hs]

theorem readAt_failbit_of_fail {s : Stream α} (hs : s.failbit = true) (p : ℕ) (m : ℕ → α) (a n : ℕ) :
    (s.readAt p m a n).2.failbit = true := by
  simp [Stream.readAt,read_failbit,hs]

theorem readAt_inside {s : Stream α} (hs : s.failbit = false) {p n : ℕ} (h : s.file.Inside p n)
    (m : ℕ → α) (a : ℕ) :
    (s.readAt p m a n).1 = blit m a n fun i => s.file.byte (p+i) := by
  have hg : (s.seekg p).gcount n = n := by
    simp only [Stream.gcount,seekg_failbit,hs,seekg_file,seekg_pos hs,Bool.false_eq_true,if_false]
    rcases h with h | h <;> omega
  simp [Stream.readAt,Stream.read,hg,seekg_pos hs]

theorem readAt_outside (s : Stream α) (p : ℕ) (m : ℕ → α) {a n i : ℕ} (hi : i < a ∨ a+n ≤ i) :
    (s.readAt p m a n).1 i = m i := by
  have hg := gcount_le (s.seekg p) n
  simp only [Stream.readAt,Stream.read]
  rcases hi with hi | hi
  · exact blit_of_lt m _ hi
  · exact blit_of_le m _ (by omega)

theorem window_readAt (s : Stream α) (p : ℕ) {m : ℕ → α} {a n : ℕ} {d : α}
    (hm : ∀ i < n, m (a+i) = d) :
    window (s.readAt p m a n).1 a n = window (s.readAt p (fun _ => d) 0 n).1 0 n := by
  apply window_congr
  intro i hi
  simp only [Stream.readAt,Stream.read,blit,Nat.zero_add,Nat.zero_le,true_and,Nat.sub_zero]
  rcases Nat.lt_or_ge i ((s.seekg p).gcount n) with h | h
  · rw [if_pos (by omega),if_pos h,Nat.add_sub_cancel_left]
  · rw [if_neg (by omega),if_neg (by omega),hm i hi]

/-- What successive accesses at the given ranges deliver into fresh cells `d`, and the
stream after them. -/
def Stream.gather (d : α) (s : Stream α) : List (ℕ × ℕ) → List α × Stream α
  | [] => ([],s)
  | r::rs =>
    let first := s.readAt r.1 (fun _ => d) 0 r.2
    let rest := Stream.gather d first.2 rs
    (window first.1 0 r.2 ++ rest.1,rest.2)

def File.extract (f : File α) (rs : List (ℕ × ℕ)) : List α := rs.flatMap fun r => window f.byte r.1 r.2

def File.Covers (f : File α) (rs : List (ℕ × ℕ)) : Prop := ∀ r ∈ rs, f.Inside r.1 r.2

instance (f : File α) (rs : List (ℕ × ℕ)) : Decidable (f.Covers rs) :=
  inferInstanceAs (Decidable (∀ r ∈ rs, f.Inside r.1 r.2))

theorem length_extract (f : File α) (rs : List (ℕ × ℕ)) :
    (f.extract rs).length = (rs.map Prod.snd).sum := by
  simp [File.extract,List.length_flatMap]

theorem length_gather (d : α) (s : Stream α) (rs : List (ℕ × ℕ)) :
    (s.gather d rs).1.length = (rs.map Prod.snd).sum := by
  induction rs generalizing s with
  | nil => rfl
  | cons r rs ih => simp [Stream.gather,ih]

theorem gather_file (d : α) (s : Stream α) (rs : List (ℕ × ℕ)) : (s.gather d rs).2.file = s.file := by
  induction rs generalizing s with
  | nil => rfl
  | cons r rs ih => simp [Stream.gather,ih]

theorem gather_of_fail (d : α) {s : Stream α} (hs : s.failbit = true) (rs : List (ℕ × ℕ)) :
    (s.gather d rs).1 = List.replicate (rs.map Prod.snd).sum d ∧ (s.gather d rs).2.failbit = true := by
  induction rs generalizing s with
  | nil => exact ⟨rfl,hs⟩
  | cons r rs ih =>
    obtain ⟨h₁,h₂⟩ := ih (readAt_failbit_of_fail hs r.1 (fun _ => d) 0 r.2)
    have hw : window (fun _ : ℕ => d) 0 r.2 = List.replicate r.2 d := by simp [window]
    refine ⟨?_,h₂⟩
    rw [Stream.gather,readAt_of_fail hs]
    simp only [hw,h₁,List.map_cons,List.sum_cons,List.replicate_add]

/-- A working stream still works afterwards exactly if every range was inside the file. -/
theorem gather_failbit (d : α) {s : Stream α} (hs : s.failbit = false) (rs : List (ℕ × ℕ)) :
    (s.gather d rs).2.failbit = decide (¬ s.file.Covers rs) := by
  induction rs generalizing s with
  | nil => simp [Stream.gather,hs,File.Covers]
  | cons r rs ih =>
    have hf := readAt_failbit hs r.1 (fun _ => d) 0 r.2
    simp only [Stream.gather]
    by_cases hr : s.file.Inside r.1 r.2
    · rw [ih (by rw [hf]; simp [hr]),readAt_file,decide_eq_decide]
      simp [File.Covers,hr]
    · rw [(gather_of_fail d (by rw [hf]; simp [hr]) rs).2]
      simp [File.Covers,hr]

theorem gather_covered (d : α) {s : Stream α} (hs : s.failbit = false) {rs : List (ℕ × ℕ)}
    (h : s.file.Covers rs) : (s.gather d rs).1 = s.file.extract rs := by
  induction rs generalizing s with
  | nil => rfl
  | cons r rs ih =>
    have hr : s.file.Inside r.1 r.2 := h r (by simp)
    have hf := readAt_failbit hs r.1 (fun _ => d) 0 r.2
    have hfirst : window (s.readAt r.1 (fun _ => d) 0 r.2).1 0 r.2 = window s.file.byte r.1 r.2 := by
      rw [readAt_inside hs hr,window_blit]
      exact window_congr fun i _ => by simp
    have hrest := ih (s := (s.readAt r.1 (fun _ => d) 0 r.2).2) (by rw [hf]; simp [hr])
      (by rw [readAt_file]; exact fun x hx => h x (by simp [hx]))
    simp only [Stream.gather,hfirst,hrest,readAt_file,File.extract,List.flatMap_cons]

end Reader
