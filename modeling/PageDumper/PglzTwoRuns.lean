import PageDumper.PglzDecompress

/-! Two runs of `pglz_decompress` on one input, with different bytes in the output area before the
call. They go the same way, and as long as they load only what they have stored, what they
have stored is the same. -/
namespace PageDumper
open Memory Words

/-- Each load of a log, which has the newest access first, is of an index that was stored
before. -/
def LoadsWritten (log : List Access) : Prop :=
  ∀ (i : ℕ) (earlier : List Access), (.load i::earlier) <:+ log → .store i ∈ earlier

theorem loadsWritten_cons {a : Access} {log : List Access} :
    LoadsWritten (a::log) ↔ (∀ i, a = .load i → .store i ∈ log) ∧ LoadsWritten log := by
  constructor
  · intro h
    refine ⟨fun i hi => h i log (hi ▸ List.suffix_rfl),fun i earlier hs => h i earlier ?_⟩
    exact hs.trans (List.suffix_cons a log)
  · rintro ⟨hhead,htail⟩ i earlier hs
    rcases List.suffix_cons_iff.mp hs with he | hs
    · obtain ⟨ha,rfl⟩ := List.cons.inj he
      exact hhead i ha.symm
    · exact htail i earlier hs

@[simp] theorem loadsWritten_source (i : ℕ) (log : List Access) :
    LoadsWritten (.source i::log) ↔ LoadsWritten log := by
  simp [loadsWritten_cons]

@[simp] theorem loadsWritten_store (i : ℕ) (log : List Access) :
    LoadsWritten (.store i::log) ↔ LoadsWritten log := by
  simp [loadsWritten_cons]

@[simp] theorem loadsWritten_load (i : ℕ) (log : List Access) :
    LoadsWritten (.load i::log) ↔ .store i ∈ log ∧ LoadsWritten log := by
  simp [loadsWritten_cons]

theorem loadsWritten_start (dest : ℕ → UInt8) : LoadsWritten (Decoder.start dest).log := by
  intro i earlier hs
  have := hs.subset (List.mem_cons_self ..)
  simp [Decoder.start] at this

structure Agree (s t : Decoder) : Prop where
  sp : t.sp = s.sp
  dp : t.dp = s.dp
  log : t.log = s.log
  bytes : LoadsWritten s.log → ∀ i, .store i ∈ s.log → t.dest i = s.dest i

namespace Agree

variable {s t : Decoder}

theorem start (dest dest' : ℕ → UInt8) : Agree (.start dest) (.start dest') :=
  ⟨rfl,rfl,rfl,fun _ i hi => by simp [Decoder.start] at hi⟩

theorem update (h : Agree s t) (hw : LoadsWritten s.log) {a : ℕ} {b b' : UInt8} (hb : b' = b)
    (i : ℕ) (hi : i = a ∨ .store i ∈ s.log) :
    Function.update t.dest a b' i = Function.update s.dest a b i := by
  by_cases hia : i = a
  · rw [hia,Function.update_self,Function.update_self,hb]
  · rw [Function.update_of_ne hia,Function.update_of_ne hia]
    exact h.bytes hw i (hi.resolve_left hia)

theorem fetch (h : Agree s t) (src : ℕ → UInt8) : Agree (s.fetch src).2 (t.fetch src).2 where
  sp := by simp only [Decoder.fetch,h.sp]
  dp := h.dp
  log := by simp only [Decoder.fetch,h.sp,h.log]
  bytes hw i hi := by
    simp only [Decoder.fetch,loadsWritten_source,List.mem_cons,reduceCtorEq,false_or] at hw hi
    exact h.bytes hw i hi

theorem readTag (h : Agree s t) (src : ℕ → UInt8) :
    (readTag src t).1 = (readTag src s).1 ∧ Agree (readTag src s).2 (readTag src t).2 := by
  have htwo : Agree { s with sp := s.sp+2, log := .source (s.sp+1)::.source s.sp::s.log }
      { t with sp := t.sp+2, log := .source (t.sp+1)::.source t.sp::t.log } := by
    refine ⟨by simp only [h.sp],h.dp,by simp only [h.sp,h.log],fun hw i hi => ?_⟩
    simp only [loadsWritten_source,List.mem_cons,reduceCtorEq,false_or] at hw hi
    exact h.bytes hw i hi
  simp only [PageDumper.readTag,h.sp]
  rw [h.sp] at htwo
  split
  · exact ⟨rfl,htwo.fetch src⟩
  · exact ⟨rfl,htwo⟩

theorem literal (h : Agree s t) (src : ℕ → UInt8) : Agree (s.literal src) (t.literal src) where
  sp := by simp only [Decoder.literal,h.sp]
  dp := by simp only [Decoder.literal,h.dp]
  log := by simp only [Decoder.literal,h.sp,h.dp,h.log]
  bytes hw i hi := by
    simp only [Decoder.literal,loadsWritten_store,loadsWritten_source,List.mem_cons,
      Access.store.injEq,reduceCtorEq,false_or] at hw hi ⊢
    rw [h.dp,h.sp]
    exact h.update hw rfl i hi

/-- The byte that is copied is the same because it was stored before. -/
theorem copyByte (h : Agree s t) (off : ℕ) : Agree (s.copyByte off) (t.copyByte off) where
  sp := h.sp
  dp := by simp only [Decoder.copyByte,h.dp]
  log := by simp only [Decoder.copyByte,h.dp,h.log]
  bytes hw i hi := by
    simp only [Decoder.copyByte,loadsWritten_store,loadsWritten_load,List.mem_cons,
      Access.store.injEq,reduceCtorEq,false_or] at hw hi ⊢
    rw [h.dp]
    exact h.update hw.2 (h.bytes hw.2 _ hw.1) i hi

theorem skip (h : Agree s t) (len : ℕ) : Agree (s.skip len) (t.skip len) :=
  ⟨h.sp,by simp only [Decoder.skip,h.dp],h.log,h.bytes⟩

theorem giveup (h : Agree s t) : Agree s.giveup t.giveup where
  sp := h.sp
  dp := h.dp
  log := by simp only [Decoder.giveup,h.log]
  bytes hw i hi := by
    simp only [Decoder.giveup,loadsWritten_store,List.mem_cons,Access.store.injEq] at hw hi ⊢
    by_cases h₁ : i = 1
    · rw [h₁,Function.update_self,Function.update_self]
    · rw [Function.update_of_ne h₁,Function.update_of_ne h₁]
      exact h.update hw rfl i (hi.resolve_left h₁)

end Agree

inductive AgreeAtExit : Except Decoder Decoder → Except Decoder Decoder → Prop
  | ok {s t : Decoder} (h : Agree s t) : AgreeAtExit (.ok s) (.ok t)
  | error {s t : Decoder} (h : Agree s t) : AgreeAtExit (.error s) (.error t)

theorem AgreeAtExit.bind {r r' : Except Decoder Decoder} {f : Decoder → Except Decoder Decoder}
    (h : AgreeAtExit r r') (hf : ∀ s t, Agree s t → AgreeAtExit (f s) (f t)) :
    AgreeAtExit (r.bind f) (r'.bind f) := by
  cases h with
  | ok h => exact hf _ _ h
  | error h => exact .error h

theorem copyTag_agree (off len : ℕ) {s t : Decoder} (h : Agree s t) :
    AgreeAtExit (copyTag off len s) (copyTag off len t) := by
  induction len generalizing s t with
  | zero => exact .ok h
  | succ len ih =>
    simp only [copyTag,h.dp]
    split
    · exact ih (h.copyByte off)
    · exact .error h.giveup

theorem items_agree (src : ℕ → UInt8) (srcend : ℕ) (destend : ℤ) (k ctrl : ℕ) {s t : Decoder}
    (h : Agree s t) : AgreeAtExit (items src srcend destend k ctrl s)
      (items src srcend destend k ctrl t) := by
  induction k generalizing ctrl s t with
  | zero => exact .ok h
  | succ k ih =>
    obtain ⟨htag,hrest⟩ := h.readTag src
    simp only [items,h.sp,h.dp,htag,hrest.dp]
    split_ifs
    · exact .ok (hrest.skip _)
    · exact (copyTag_agree _ _ hrest).bind fun s t h => ih _ h
    · exact .ok h
    · exact ih _ (h.literal src)
    · exact .ok h

theorem decode_agree (src : ℕ → UInt8) (srcend : ℕ) (destend : ℤ) (fuel : ℕ) {s t : Decoder}
    (h : Agree s t) : AgreeAtExit (decode src srcend destend fuel s)
      (decode src srcend destend fuel t) := by
  induction fuel generalizing s t with
  | zero => exact .ok h
  | succ fuel ih =>
    have hctrl : (t.fetch src).1 = (s.fetch src).1 := by simp only [Decoder.fetch,h.sp]
    simp only [decode,h.sp,h.dp,hctrl]
    split
    · exact (items_agree src srcend destend 8 _ (h.fetch src)).bind fun s t h => ih h
    · exact .ok h

/-- What was in the output area decides neither how the run ends nor what it accesses. -/
theorem pglzDecompress_agree (source dest dest' : ℕ → UInt8) :
    (pglzDecompress source dest').exit = (pglzDecompress source dest).exit ∧
      Agree (pglzDecompress source dest).state (pglzDecompress source dest').state := by
  have h := decode_agree source (varsize (le32 source 0)) (int32 (le32 source 4))
    (varsize (le32 source 0)) (Agree.start dest dest')
  simp only [pglzDecompress]
  generalize decode source _ _ _ (.start dest) = r at h
  generalize decode source _ _ _ (.start dest') = r' at h
  cases h with
  | ok h =>
    simp only [h.sp,h.dp]
    split <;> exact ⟨rfl,h⟩
  | error h => exact ⟨rfl,h⟩

/-- The bytes that the decoder writes are the same for all former contents of the output area. -/
def DestIndependent (source : ℕ → UInt8) : Prop :=
  ∀ (dest dest' : ℕ → UInt8) (i : ℕ), .store i ∈ (pglzDecompress source dest).state.log →
    (pglzDecompress source dest').state.dest i = (pglzDecompress source dest).state.dest i

theorem destIndependent_of_loadsWritten {source : ℕ → UInt8}
    (h : ∀ dest, LoadsWritten (pglzDecompress source dest).state.log) : DestIndependent source :=
  fun dest dest' => (pglzDecompress_agree source dest dest').2.bytes (h dest)

end PageDumper
