import PageDumper.PglzExits
import PageDumper.PglzTwoRuns

/-! What the copy loop of `pglz_decompress` loads. The local guard refuses a match that starts
before the output; it lets the offset zero pass, at which the loop reads the byte it is about
to write. All other matches stay inside the bytes that have been written. -/
namespace PageDumper
open Memory Words

def Token.SelfCopy (srcend : ℕ) (destend : ℤ) (s o : ℕ) : Token → Prop
  | tag _ off len => off = 0 ∧ s < srcend ∧ (o : ℤ)+len ≤ destend
  | _ => False

theorem not_selfCopy_of_stops {srcend : ℕ} {destend : ℤ} {s o : ℕ} {t : Token}
    (h : t.Stops srcend destend s o) : ¬ t.SelfCopy srcend destend s o := by
  cases t with
  | tag b off len =>
    rintro ⟨rfl,hs,ho⟩
    simp only [Token.Stops] at h
    omega
  | control => exact id
  | literal => exact id
  | cut => exact id

/-- Index `i` was copied onto itself before anything was stored there. -/
def CopiedUnwritten (i : ℕ) (log : List Access) : Prop :=
  ∃ earlier, (.store i::.load i::earlier) <:+ log ∧ .store i ∉ earlier

theorem CopiedUnwritten.mono {i : ℕ} {log log' : List Access} (h : CopiedUnwritten i log)
    (hs : log <:+ log') : CopiedUnwritten i log' := by
  obtain ⟨earlier,he,hi⟩ := h
  exact ⟨earlier,he.trans hs,hi⟩

theorem CopiedUnwritten.store_mem {i : ℕ} {log : List Access} (h : CopiedUnwritten i log) :
    .store i ∈ log := by
  obtain ⟨earlier,he,-⟩ := h
  exact he.subset (List.mem_cons_self ..)

@[simp] theorem copiedUnwritten_source {i j : ℕ} {log : List Access} :
    CopiedUnwritten i (.source j::log) ↔ CopiedUnwritten i log := by
  simp [CopiedUnwritten,List.suffix_cons_iff]

theorem copiedUnwritten_store_of_ne {i j : ℕ} {log : List Access} (hij : i ≠ j) :
    CopiedUnwritten i (.store j::log) ↔ CopiedUnwritten i log := by
  simp [CopiedUnwritten,List.suffix_cons_iff,hij]

theorem copiedUnwritten_literal {i j k : ℕ} {log : List Access} :
    CopiedUnwritten i (.store j::.source k::log) ↔ CopiedUnwritten i log := by
  simp [CopiedUnwritten,List.suffix_cons_iff]

theorem copiedUnwritten_copy {i j k : ℕ} {log : List Access} :
    CopiedUnwritten i (.store j::.load k::log) ↔
      (i = j ∧ i = k ∧ .store i ∉ log) ∨ CopiedUnwritten i log := by
  simp only [CopiedUnwritten,List.suffix_cons_iff,List.cons.injEq,Access.store.injEq,
    Access.load.injEq,reduceCtorEq,false_and,false_or]
  constructor
  · rintro ⟨earlier,⟨hj,hk,rfl⟩ | he,hi⟩
    · exact .inl ⟨hj,hk,hi⟩
    · exact .inr ⟨earlier,he,hi⟩
  · rintro (⟨hj,hk,hi⟩ | ⟨earlier,he,hi⟩)
    · exact ⟨log,.inl ⟨hj,hk,rfl⟩,hi⟩
    · exact ⟨earlier,.inr he,hi⟩

/-! ### What a copy from offset zero leaves -/

/-- Where nothing was stored, or a byte was copied onto itself, the output area is as before the
call. The give-up marker, which overwrites the first two bytes, is left out. -/
structure Untouched (dest : ℕ → UInt8) (s : Decoder) : Prop where
  unwritten : ∀ i, .store i ∉ s.log → s.dest i = dest i
  copied : ∀ i, 2 ≤ i → CopiedUnwritten i s.log → i < s.dp ∧ s.dest i = dest i

theorem untouched_start (dest : ℕ → UInt8) : Untouched dest (.start dest) where
  unwritten _ _ := rfl
  copied i _ hi := by simpa [Decoder.start] using hi.store_mem

theorem inductive_untouched (src dest : ℕ → UInt8) (srcend : ℕ) (destend : ℤ) :
    Inductive src srcend destend (Untouched dest) where
  control s h _ _ :=
    ⟨fun i hi => h.unwritten i (by simpa [Decoder.fetch] using hi),
      fun i h₂ hi => h.copied i h₂ (by simpa [Decoder.fetch] using hi)⟩
  literal s h _ _ := by
    refine ⟨fun i hi => ?_,fun i h₂ hi => ?_⟩
    · simp only [Decoder.literal,List.mem_cons,Access.store.injEq,reduceCtorEq,false_or,
        not_or] at hi ⊢
      rw [Function.update_of_ne hi.1,h.unwritten i hi.2]
    · simp only [Decoder.literal] at hi ⊢
      obtain ⟨hlt,heq⟩ := h.copied i h₂ (copiedUnwritten_literal.mp hi)
      rw [Function.update_of_ne (by omega)]
      exact ⟨by omega,heq⟩
  tag s h _ := by
    refine ⟨fun i hi => ?_,fun i h₂ hi => ?_⟩
    · rw [readTag_dest]
      refine h.unwritten i fun hs => hi ?_
      simp only [readTag]
      split <;> simp [Decoder.fetch,hs]
    · rw [readTag_dest,readTag_dp]
      refine h.copied i h₂ ?_
      simp only [readTag] at hi
      split at hi <;> simpa [Decoder.fetch] using hi
  overrun s len h _ :=
    ⟨h.unwritten,fun i h₂ hi => ⟨Nat.lt_add_right len (h.copied i h₂ hi).1,(h.copied i h₂ hi).2⟩⟩
  copy s off h _ _ := by
    refine ⟨fun i hi => ?_,fun i h₂ hi => ?_⟩
    · simp only [Decoder.copyByte,List.mem_cons,Access.store.injEq,reduceCtorEq,false_or,
        not_or] at hi ⊢
      rw [Function.update_of_ne hi.1,h.unwritten i hi.2]
    · simp only [Decoder.copyByte] at hi ⊢
      rcases copiedUnwritten_copy.mp hi with ⟨hdp,hload,hnot⟩ | hi
      · refine ⟨by omega,?_⟩
        rw [← hload,← hdp,Function.update_self]
        exact h.unwritten i hnot
      · obtain ⟨hlt,heq⟩ := h.copied i h₂ hi
        rw [Function.update_of_ne (by omega)]
        exact ⟨by omega,heq⟩
  giveup s h _ := by
    refine ⟨fun i hi => ?_,fun i h₂ hi => ?_⟩
    · simp only [Decoder.giveup,List.mem_cons,Access.store.injEq,not_or] at hi ⊢
      rw [Function.update_of_ne hi.1,Function.update_of_ne hi.2.1,h.unwritten i hi.2.2]
    · simp only [Decoder.giveup] at hi ⊢
      rw [copiedUnwritten_store_of_ne (by omega),copiedUnwritten_store_of_ne (by omega)] at hi
      rw [Function.update_of_ne (by omega),Function.update_of_ne (by omega)]
      exact h.copied i h₂ hi

theorem pglzDecompress_untouched (source dest : ℕ → UInt8) :
    Untouched dest (pglzDecompress source dest).state := by
  rw [pglzDecompress_state]
  exact decode_invariant (inductive_untouched source dest _ _) _ _ (untouched_start dest)

theorem inductive_suffix (src : ℕ → UInt8) (srcend : ℕ) (destend : ℤ) (log : List Access) :
    Inductive src srcend destend (fun s => log <:+ s.log) where
  control s h _ _ := h.trans (List.suffix_cons ..)
  literal s h _ _ := (h.trans (List.suffix_cons ..)).trans (List.suffix_cons ..)
  tag s h _ := by
    have htwo := (h.trans (List.suffix_cons (.source s.sp) _)).trans
      (List.suffix_cons (.source (s.sp+1)) _)
    simp only [readTag]
    split
    · exact htwo.trans (List.suffix_cons ..)
    · exact htwo
  overrun s _ h _ := h
  copy s off h _ _ := (h.trans (List.suffix_cons ..)).trans (List.suffix_cons ..)
  giveup s h _ := (h.trans (List.suffix_cons ..)).trans (List.suffix_cons ..)

/-! ### The written prefix -/

/-- The bytes before `dp` are those that have been written, and only such bytes were read. -/
structure Filled (s : Decoder) : Prop where
  loads : LoadsWritten s.log
  stores : ∀ i, .store i ∈ s.log ↔ i < s.dp

namespace Filled

variable {s : Decoder}

theorem start (dest : ℕ → UInt8) : Filled (.start dest) :=
  ⟨loadsWritten_start dest,fun i => by simp [Decoder.start]⟩

theorem fetch (h : Filled s) (src : ℕ → UInt8) : Filled (s.fetch src).2 :=
  ⟨by simpa [Decoder.fetch] using h.loads,fun i => by simpa [Decoder.fetch] using h.stores i⟩

theorem literal (h : Filled s) (src : ℕ → UInt8) : Filled (s.literal src) := by
  refine ⟨by simpa [Decoder.literal] using h.loads,fun i => ?_⟩
  simp only [Decoder.literal,List.mem_cons,Access.store.injEq,reduceCtorEq,false_or,h.stores]
  omega

theorem readTag (h : Filled s) (src : ℕ → UInt8) : Filled (readTag src s).2 := by
  refine ⟨?_,fun i => ?_⟩
  · simp only [PageDumper.readTag]
    split <;> simpa [Decoder.fetch] using h.loads
  · rw [readTag_dp]
    simp only [PageDumper.readTag]
    split <;> simpa [Decoder.fetch] using h.stores i

theorem copyByte (h : Filled s) {off : ℕ} (h₀ : off ≠ 0) (hoff : off ≤ s.dp) :
    Filled (s.copyByte off) := by
  refine ⟨?_,fun i => ?_⟩
  · simp only [Decoder.copyByte,loadsWritten_store,loadsWritten_load,h.stores]
    exact ⟨by omega,h.loads⟩
  · simp only [Decoder.copyByte,List.mem_cons,Access.store.injEq,reduceCtorEq,false_or,h.stores]
    omega

theorem copyTag (h : Filled s) {off len : ℕ} {s' : Decoder} (h₀ : off ≠ 0)
    (hc : copyTag off len s = .ok s') : Filled s' := by
  induction len generalizing s with
  | zero =>
    cases hc
    exact h
  | succ len ih =>
    simp only [PageDumper.copyTag] at hc
    split at hc
    · rename_i hoff
      exact ih (h.copyByte h₀ hoff) hc
    · cases hc

end Filled

theorem copyTag_zero {len : ℕ} {s s' : Decoder} (h : ∀ i, .store i ∈ s.log → i < s.dp)
    (hc : copyTag 0 len s = .ok s') :
    s.log <:+ s'.log ∧ ∀ j < len, CopiedUnwritten (s.dp+j) s'.log := by
  induction len generalizing s with
  | zero =>
    cases hc
    exact ⟨List.suffix_rfl,fun j hj => absurd hj (Nat.not_lt_zero j)⟩
  | succ len ih =>
    rw [copyTag,if_pos (Nat.zero_le _)] at hc
    have hstep : ∀ i, .store i ∈ (s.copyByte 0).log → i < (s.copyByte 0).dp := by
      intro i hi
      simp only [Decoder.copyByte,List.mem_cons,Access.store.injEq,reduceCtorEq,false_or] at hi ⊢
      rcases hi with rfl | hi
      · omega
      · have := h i hi
        omega
    obtain ⟨hlog,hcopied⟩ := ih hstep hc
    have hfirst : CopiedUnwritten s.dp (s.copyByte 0).log :=
      copiedUnwritten_copy.mpr (.inl ⟨rfl,rfl,fun hi => absurd (h _ hi) (Nat.lt_irrefl _)⟩)
    refine ⟨List.IsSuffix.trans ?_ hlog,fun j hj => ?_⟩
    · exact (List.suffix_cons ..).trans (List.suffix_cons ..)
    · cases j with
      | zero => exact hfirst.mono hlog
      | succ j =>
        have hj' := hcopied j (by omega)
        simp only [Decoder.copyByte] at hj'
        rwa [Nat.add_assoc,Nat.add_comm 1 j] at hj'

section Matching

variable {srcend : ℕ} {destend : ℤ}

/-- A run from a point of the stream on either loads only what was written and comes to no match
of offset zero, or it comes to one and has copied a byte that was not written. -/
def LogMatches (srcend : ℕ) (destend : ℤ) (log : List Access) (s o : ℕ) (ts : List Token) : Prop :=
  (LoadsWritten log ∧ ¬ Reaches srcend destend (Token.SelfCopy srcend destend) s o ts) ∨
    ((∃ i, 2 ≤ i ∧ CopiedUnwritten i log) ∧
      Reaches srcend destend (Token.SelfCopy srcend destend) s o ts)

theorem LogMatches.stop {log : List Access} {s o : ℕ} {t : Token} (ts : List Token)
    (hstop : t.Stops srcend destend s o) (hlog : LoadsWritten log) :
    LogMatches srcend destend log s o (t::ts) :=
  .inl ⟨hlog,not_reaches_of_stops hstop (not_selfCopy_of_stops hstop)⟩

theorem LogMatches.pass {log : List Access} {s o : ℕ} {t : Token} {ts : List Token}
    (hstop : ¬ t.Stops srcend destend s o) (ht : ¬ t.SelfCopy srcend destend s o)
    (h : LogMatches srcend destend log (s+t.bytes) (o+t.output) ts) :
    LogMatches srcend destend log s o (t::ts) := by
  rw [LogMatches,reaches_of_passes hstop ht]
  exact h

theorem tokenwise_logMatches (src : ℕ → UInt8) (srcend : ℕ) (destend : ℤ) (n : ℕ) :
    Tokenwise src srcend destend n fun r s ts => Filled s →
      LogMatches srcend destend (final r).log s.sp s.dp ts where
  at_end _ t ts hend h := .stop ts (t.stops_of_le hend) h.loads
  full _ _ ts ht hfull h := .stop ts (Token.stops_of_full ht hfull) h.loads
  control _ _ _ _ hsp hdp hrest h :=
    .pass (by simp only [Token.Stops]; omega) id (hrest (h.fetch src))
  literal _ _ _ _ hsp hdp hrest h :=
    .pass (by simp only [Token.Stops]; omega) id (hrest (h.literal src))
  overrun _ _ _ _ ts _ _ hover h := .stop ts (.inr (.inl hover)) (h.readTag src).loads
  giveup s _ _ _ ts _ _ _ hback h := by
    refine .stop ts (.inr (.inr hback)) ?_
    simpa [Decoder.giveup] using (h.readTag src).loads
  copied fuel k ctrl s s' b off len _ _ hsp hover hoff hthree hc hsp' hdp' hrest h := by
    have ht := h.readTag src
    by_cases hzero : off = 0
    · rw [hzero] at hc
      obtain ⟨-,hcopied⟩ := copyTag_zero (fun i hi => (ht.stores i).mp hi) hc
      have hgrow := inductive_suffix src srcend destend s'.log
      have hlog := proceed_invariant hgrow fuel k ctrl List.suffix_rfl
      refine .inr ⟨⟨(readTag src s).2.dp+2,by omega,?_⟩,.inl ⟨hzero,hsp,by omega⟩⟩
      exact (hcopied 2 (by omega)).mono hlog
    · refine .pass (by simp only [Token.Stops]; omega) (fun hs => hzero hs.1) ?_
      have hnext := hrest (ht.copyTag hzero hc)
      rwa [hsp',hdp'] at hnext

end Matching

theorem pglzDecompress_logMatches (source dest : ℕ → UInt8) :
    LogMatches (varsize (le32 source 0)) (int32 (le32 source 4)) (pglzDecompress source dest).state.log
      8 0 (sourceTokens source) := by
  rw [pglzDecompress_state]
  exact proceed_tokens (tokenwise_logMatches source _ _ _) (missing_of_covers (sourceWindow_covers source))
    0 0 _ (varsize (le32 source 0)) (.start dest) (holds_window source 8 _) rfl (Nat.le_add_left _ _)
    (.start dest)

theorem loadsWritten_of_not_reaches {source : ℕ → UInt8}
    (h : ¬ Reaches (varsize (le32 source 0)) (int32 (le32 source 4))
      (Token.SelfCopy (varsize (le32 source 0)) (int32 (le32 source 4))) 8 0 (sourceTokens source))
    (dest : ℕ → UInt8) : LoadsWritten (pglzDecompress source dest).state.log := by
  rcases pglzDecompress_logMatches source dest with ⟨hloads,-⟩ | ⟨-,hreach⟩
  · exact hloads
  · exact absurd hreach h

theorem not_reaches_of_destIndependent {source : ℕ → UInt8} (h : DestIndependent source) :
    ¬ Reaches (varsize (le32 source 0)) (int32 (le32 source 4))
      (Token.SelfCopy (varsize (le32 source 0)) (int32 (le32 source 4))) 8 0
      (sourceTokens source) := by
  intro hreach
  rcases pglzDecompress_logMatches source (fun _ => 0) with ⟨-,hno⟩ | ⟨⟨i,h₂,hi⟩,-⟩
  · exact hno hreach
  · have hi' : CopiedUnwritten i (pglzDecompress source fun _ => 1).state.log := by
      rw [(pglzDecompress_agree source (fun _ => 0) (fun _ => 1)).2.log]
      exact hi
    have hzero := ((pglzDecompress_untouched source fun _ => 0).copied i h₂ hi).2
    have hone := ((pglzDecompress_untouched source fun _ => 1).copied i h₂ hi').2
    have heq := h (fun _ => 0) (fun _ => 1) i hi.store_mem
    rw [hzero,hone] at heq
    exact absurd heq (by decide)

/-- For every source memory, all loads of the copy loop are of bytes that the call has stored
before, and what it stores does not depend on the output area, if and only if the decoder
follows no match of offset zero. -/
theorem pglzDecompress_backReferences_iff (source : ℕ → UInt8) :
    ((∀ dest, LoadsWritten (pglzDecompress source dest).state.log) ∧ DestIndependent source) ↔
      ¬ Reaches (varsize (le32 source 0)) (int32 (le32 source 4))
        (Token.SelfCopy (varsize (le32 source 0)) (int32 (le32 source 4))) 8 0
        (sourceTokens source) := by
  constructor
  · rintro ⟨-,hind⟩
    exact not_reaches_of_destIndependent hind
  · intro hno
    have hloads := loadsWritten_of_not_reaches hno
    exact ⟨hloads,destIndependent_of_loadsWritten hloads⟩

def selfCopyDatum : ℕ → UInt8 := fun i => [44,0,0,0,3,0,0,0,1,0,0].getD i 0

/-- The decoder returns as if all were well, with the bytes that were there. -/
theorem not_backReferences_selfCopyDatum :
    (∀ dest, (pglzDecompress selfCopyDatum dest).exit = .returned) ∧
    ¬ ((∀ dest, LoadsWritten (pglzDecompress selfCopyDatum dest).state.log) ∧
      DestIndependent selfCopyDatum) := by
  have hzero : (pglzDecompress selfCopyDatum fun _ => 0).exit = .returned := by decide
  refine ⟨fun dest => (pglzDecompress_agree selfCopyDatum _ dest).1.trans hzero,fun h => ?_⟩
  have heq := h.2 (fun _ => 0) (fun _ => 1) 0 (by decide)
  exact absurd heq (by decide)

end PageDumper
