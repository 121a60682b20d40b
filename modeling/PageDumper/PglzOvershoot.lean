import PageDumper.SourceReads

/-! How far `pglz_decompress` reads in its source. The end of the input is tested once for each
item, so a tag that starts before the end is read to its own end. -/
namespace PageDumper
open Memory Words

def Token.CutShort (srcend s _o : ℕ) : Token → Prop
  | cut => s < srcend
  | _ => False

section Ends

variable {srcend : ℕ} {destend : ℤ} {s o : ℕ} {t : Token} {ts : List Token}

theorem stopsWithin_cons_iff (ht : ¬ t.CutShort srcend s o)
    (h : StopsWithin srcend destend (s+t.bytes) (o+t.output) ts ↔
      ¬ Reaches srcend destend (Token.CutShort srcend) (s+t.bytes) (o+t.output) ts) :
    StopsWithin srcend destend s o (t::ts) ↔
      ¬ Reaches srcend destend (Token.CutShort srcend) s o (t::ts) := by
  by_cases hstop : t.Stops srcend destend s o
  · exact iff_of_true (.inl hstop) (not_reaches_of_stops hstop ht)
  · rw [StopsWithin,reaches_of_passes hstop ht,← h]
    simp only [hstop,false_or]

theorem stopsWithin_cut_iff : StopsWithin srcend destend s o [.cut] ↔
    ¬ Reaches srcend destend (Token.CutShort srcend) s o [.cut] := by
  simp [StopsWithin,Reaches,Token.Stops,Token.CutShort]

/-- In a stream that ends where the input does, the decoder stops or comes to a tag cut short. -/
theorem stopsWithin_iff_not_cutShort (k ctrl : ℕ) (l : List UInt8) (s o : ℕ)
    (h : s+l.length = srcend) :
    StopsWithin srcend destend s o (tokens k ctrl l) ↔
      ¬ Reaches srcend destend (Token.CutShort srcend) s o (tokens k ctrl l) := by
  fun_induction tokens k ctrl l generalizing s o with
  | case1 ctrl =>
    have hstop : Token.control.Stops srcend destend s o := .inl (Nat.le_of_eq h.symm)
    exact iff_of_true (.inl hstop) (not_reaches_of_stops hstop id)
  | case2 ctrl c l ih =>
    rw [List.length_cons] at h
    exact stopsWithin_cons_iff id (ih _ _ (by simp only [Token.bytes]; omega))
  | case3 k ctrl hb t1 t2 len off hlen t3 l ih =>
    simp only [List.length_cons] at h
    exact stopsWithin_cons_iff id (ih _ _ (by simp only [Token.bytes]; omega))
  | case4 => exact stopsWithin_cut_iff
  | case5 k ctrl hb t1 t2 l len off hlen ih =>
    simp only [List.length_cons] at h
    exact stopsWithin_cons_iff id (ih _ _ (by simp only [Token.bytes]; omega))
  | case6 => exact stopsWithin_cut_iff
  | case7 k ctrl hb c l ih =>
    rw [List.length_cons] at h
    exact stopsWithin_cons_iff id (ih _ _ (by simp only [Token.bytes]; omega))
  | case8 k ctrl hb =>
    have hstop : Token.literal.Stops srcend destend s o := .inl (Nat.le_of_eq h.symm)
    exact iff_of_true (.inl hstop) (not_reaches_of_stops hstop id)

end Ends

/-- An item starts before the end of the input and has at most three bytes. -/
theorem inductive_overshoot (src : ℕ → UInt8) (srcend : ℕ) (destend : ℤ) :
    Inductive src srcend destend (ReadsBelow (srcend+2)) where
  control s h hsp _ := h.cons (show s.sp < srcend+2 by omega) (by simp [Decoder.fetch])
  literal s h hsp _ := h.cons (show s.sp < srcend+2 by omega) (by simp [Decoder.literal])
  tag s h hsp := by
    intro i hi
    simp only [readTag] at hi
    split at hi
    · simp only [Decoder.fetch,List.mem_cons,Access.source.injEq] at hi
      rcases hi with rfl | rfl | rfl | hi
      · omega
      · omega
      · omega
      · exact h i hi
    · simp only [List.mem_cons,Access.source.injEq] at hi
      rcases hi with rfl | rfl | hi
      · omega
      · omega
      · exact h i hi
  overrun s _ h _ := h
  copy s off h _ _ i hi := h i (by simpa [Decoder.copyByte] using hi)
  giveup s h _ i hi := h i (by simpa [Decoder.giveup] using hi)

theorem pglzDecompress_overshoot (source dest : ℕ → UInt8) (h : 8 ≤ varsize (le32 source 0)) :
    ReadsBelow (varsize (le32 source 0)+2) (pglzDecompress source dest).state := by
  rw [pglzDecompress_state]
  exact decode_invariant (inductive_overshoot source _ _) _ _ (readsBelow_start (by omega) dest)

def announcedTokens (source : ℕ → UInt8) : List Token :=
  tokens 0 0 (window source 8 (varsize (le32 source 0)-8))

/-- For every source memory of which the header counts its own bytes, and every `rawsize`, the
decoder reads below the length in the header if and only if it does not come to a tag that
this length cuts short. -/
theorem pglzDecompress_readsAnnounced_iff (source dest : ℕ → UInt8)
    (h : 8 ≤ varsize (le32 source 0)) :
    (∀ i : ℕ, .source i ∈ (pglzDecompress source dest).state.log → i < varsize (le32 source 0)) ↔
      ¬ Reaches (varsize (le32 source 0)) (int32 (le32 source 4))
        (Token.CutShort (varsize (le32 source 0))) 8 0 (announcedTokens source) := by
  have hlen : 8+(window source 8 (varsize (le32 source 0)-8)).length = varsize (le32 source 0) := by
    rw [length_window]
    omega
  have hreads := pglzDecompress_readsBelow_iff
    (holds_window source 8 (varsize (le32 source 0)-8)) dest
  rw [hlen] at hreads
  rw [announcedTokens,← stopsWithin_iff_not_cutShort 0 0 _ 8 0 hlen,← hreads]
  rfl

/-- Ten bytes, of which the last is the first byte of a tag. -/
def cutDatum : ℕ → UInt8 := fun i => [40,0,0,0,3,0,0,0,1,0].getD i 0

theorem pglzDecompress_readsAnnounced_cut :
    (∀ i : ℕ, .source i ∈ (pglzDecompress cutDatum (fun _ => 0)).state.log →
        i < varsize (le32 cutDatum 0)) ↔
      ¬ Reaches (varsize (le32 cutDatum 0)) (int32 (le32 cutDatum 4))
        (Token.CutShort (varsize (le32 cutDatum 0))) 8 0 (announcedTokens cutDatum) :=
  pglzDecompress_readsAnnounced_iff cutDatum (fun _ => 0) (by decide)

theorem not_readsAnnounced_cutDatum :
    varsize (le32 cutDatum 0) = 10 ∧
    ¬ ∀ i : ℕ, .source i ∈ (pglzDecompress cutDatum (fun _ => 0)).state.log →
      i < varsize (le32 cutDatum 0) := by
  have hsize : varsize (le32 cutDatum 0) = 10 := rfl
  refine ⟨hsize,fun h => ?_⟩
  have hread : .source 10 ∈ (pglzDecompress cutDatum (fun _ => 0)).state.log := by decide
  have := h 10 hread
  omega

end PageDumper
