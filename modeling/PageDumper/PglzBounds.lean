import PageDumper.PglzDecompress

/-! On an output area `pglz_decompress` writes nothing but the first `rawsize` bytes. -/
namespace PageDumper
open Memory Words

/-- All logged stores hit the output proper, and the rest of the output area is as before. -/
structure StoresWithin (dest : ℕ → UInt8) (destend : ℤ) (s : Decoder) : Prop where
  store : ∀ i : ℕ, .store i ∈ s.log → (i : ℤ) < destend
  frame : ∀ i : ℕ, destend ≤ i → s.dest i = dest i

theorem storesWithin_start (dest : ℕ → UInt8) (destend : ℤ) :
    StoresWithin dest destend (.start dest) where
  store i hi := by simp [Decoder.start] at hi
  frame _ _ := rfl

theorem StoresWithin.update {dest : ℕ → UInt8} {destend : ℤ} {s : Decoder}
    (h : StoresWithin dest destend s) {a : ℕ} (ha : (a : ℤ) < destend) (b : UInt8) (i : ℕ)
    (hi : destend ≤ i) : Function.update s.dest a b i = dest i := by
  rw [Function.update_of_ne (by omega)]
  exact h.frame i hi

/-- The give-up marker is safe because a copy loop is entered only with a match of at
least three bytes that fits the output. -/
theorem inductive_storesWithin (src dest : ℕ → UInt8) (srcend : ℕ) (destend : ℤ) :
    Inductive src srcend destend (StoresWithin dest destend) where
  control s h _ _ := ⟨fun i hi => h.store i (by simpa [Decoder.fetch] using hi),h.frame⟩
  literal s h _ hdp := by
    refine ⟨fun i hi => ?_,h.update hdp _⟩
    simp only [Decoder.literal,List.mem_cons,Access.store.injEq,reduceCtorEq,false_or] at hi
    rcases hi with rfl | hi
    · exact hdp
    · exact h.store i hi
  tag s h _ := by
    refine ⟨fun i hi => h.store i ?_,by simpa using h.frame⟩
    simp only [readTag] at hi
    split at hi <;> simpa [Decoder.fetch] using hi
  overrun s _ h _ := ⟨h.store,h.frame⟩
  copy s off h _ hdp := by
    refine ⟨fun i hi => ?_,h.update hdp _⟩
    simp only [Decoder.copyByte,List.mem_cons,Access.store.injEq,reduceCtorEq,false_or] at hi
    rcases hi with rfl | hi
    · exact hdp
    · exact h.store i hi
  giveup s h h₃ := by
    refine ⟨fun i hi => ?_,fun i hi => ?_⟩
    · simp only [Decoder.giveup,List.mem_cons,Access.store.injEq] at hi
      rcases hi with rfl | rfl | hi
      · omega
      · omega
      · exact h.store i hi
    · simp only [Decoder.giveup]
      rw [Function.update_of_ne (by omega),h.update (by omega) _ i hi]

theorem pglzDecompress_storesWithin (source dest : ℕ → UInt8) :
    StoresWithin dest (int32 (le32 source 4)) (pglzDecompress source dest).state := by
  rw [pglzDecompress_state]
  exact decode_invariant (inductive_storesWithin source dest _ _) _ _ (storesWithin_start dest _)

end PageDumper
