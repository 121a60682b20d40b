import PageDumper.PglzTokens

/-! How `pglz_decompress` ends for arbitrary input, told from the token at which it stops. The
final check lets two ways out pass that leave the output incomplete: the input ends exactly
between two tokens, or a match overruns the output. -/
namespace PageDumper
open Memory Words

/-- The decoder stops at a token for which `P` holds, where `P` is told the source offset of
the token and the number of output bytes that exist there. -/
def StopsAt (srcend : ℕ) (destend : ℤ) (P : ℕ → ℕ → Token → Prop) : ℕ → ℕ → List Token → Prop
  | _, _, [] => False
  | s, o, t::ts => (t.Stops srcend destend s o ∧ P s o t) ∨
      (¬ t.Stops srcend destend s o ∧ StopsAt srcend destend P (s+t.bytes) (o+t.output) ts)

theorem StopsAt.iff {srcend : ℕ} {destend : ℤ} {P Q : ℕ → ℕ → Token → Prop} {s o : ℕ}
    {ts : List Token} (h : StopsAt srcend destend P s o ts) {X : Prop}
    (hX : ∀ s o t, P s o t → (Q s o t ↔ X)) : StopsAt srcend destend Q s o ts ↔ X := by
  induction ts generalizing s o with
  | nil => exact h.elim
  | cons t ts ih =>
    rw [StopsAt]
    rcases h with ⟨hstop,hP⟩ | ⟨hstop,hrest⟩
    · simp only [hstop,true_and,not_true_eq_false,false_and,or_false]
      exact hX s o t hP
    · simp only [hstop,false_and,not_false_eq_true,true_and,false_or]
      exact ih hrest

/-- The decoder comes to a token for which `P` holds, where `P` is told the source offset of the
token and the number of output bytes that exist there. -/
def Reaches (srcend : ℕ) (destend : ℤ) (P : ℕ → ℕ → Token → Prop) : ℕ → ℕ → List Token → Prop
  | _, _, [] => False
  | s, o, t::ts => P s o t ∨
      (¬ t.Stops srcend destend s o ∧ Reaches srcend destend P (s+t.bytes) (o+t.output) ts)

theorem not_reaches_of_stops {srcend : ℕ} {destend : ℤ} {P : ℕ → ℕ → Token → Prop} {s o : ℕ}
    {t : Token} {ts : List Token} (hstop : t.Stops srcend destend s o) (hP : ¬ P s o t) :
    ¬ Reaches srcend destend P s o (t::ts) := by
  rintro (h | ⟨h,-⟩)
  · exact hP h
  · exact h hstop

theorem reaches_of_passes {srcend : ℕ} {destend : ℤ} {P : ℕ → ℕ → Token → Prop} {s o : ℕ}
    {t : Token} {ts : List Token} (hstop : ¬ t.Stops srcend destend s o) (hP : ¬ P s o t) :
    Reaches srcend destend P s o (t::ts) ↔
      Reaches srcend destend P (s+t.bytes) (o+t.output) ts := by
  simp only [Reaches,hP,hstop,not_false_eq_true,true_and,false_or]

def Token.Overruns (destend : ℤ) (o : ℕ) : Token → Prop
  | tag _ _ len => destend < o+len
  | _ => False

/-- How a run ends at the token that stops it: at the end of the input or of the output it
stays in place, at an overrun only `dp` moves on, and the other way out is to give up. -/
inductive Leaves (srcend : ℕ) (destend : ℤ) (s o : ℕ) (t : Token) : Except Decoder Decoder → Prop
  | stay (f : Decoder) (sp : f.sp = s) (dp : f.dp = o) (fits : (o : ℤ) ≤ destend)
      (at_end : srcend ≤ s ∨ destend ≤ o ∧ ¬ t.Overruns destend o) : Leaves srcend destend s o t (.ok f)
  | overrun (f : Decoder) (dp : destend < f.dp) (before : s < srcend)
      (overruns : t.Overruns destend o) : Leaves srcend destend s o t (.ok f)
  | giveup (f : Decoder) (before : s < srcend) (fits : ¬ t.Overruns destend o) :
      Leaves srcend destend s o t (.error f)

theorem tokenwise_leaves (src : ℕ → UInt8) (srcend : ℕ) (destend : ℤ) (n : ℕ) :
    Tokenwise src srcend destend n fun r s ts => (s.dp : ℤ) ≤ destend →
      StopsAt srcend destend (fun s₁ o₁ t₁ => Leaves srcend destend s₁ o₁ t₁ r) s.sp s.dp ts where
  at_end s t _ hend hd := .inl ⟨t.stops_of_le hend,.stay s rfl rfl hd (.inl hend)⟩
  full s t _ ht hfull hd := by
    refine .inl ⟨Token.stops_of_full ht hfull,.stay s rfl rfl hd (.inr ⟨hfull,?_⟩)⟩
    rcases ht with rfl | rfl <;> exact id
  control _ s _ _ hsp hdp hrest hd := .inr ⟨by simp only [Token.Stops]; omega,hrest hd⟩
  literal _ s _ _ hsp hdp hrest _ := by
    refine .inr ⟨by simp only [Token.Stops]; omega,hrest ?_⟩
    simp only [Decoder.literal]
    omega
  overrun s _ _ len _ _ hsp hover _ := by
    refine .inl ⟨.inr (.inl hover),.overrun _ ?_ hsp hover⟩
    simp only [Decoder.skip,readTag_dp]
    push_cast
    exact hover
  giveup _ _ _ _ _ _ hsp hover hback _ := .inl ⟨.inr (.inr hback),.giveup _ hsp hover⟩
  copied _ _ _ s s' b off len _ _ hsp hover hoff _ _ hsp' hdp' hrest _ := by
    have hd' : (s'.dp : ℤ) ≤ destend := by
      rw [hdp']
      push_cast
      omega
    have h := hrest hd'
    rw [hsp',hdp'] at h
    exact .inr ⟨by simp only [Token.Stops]; omega,h⟩

/-- The tokens of a compressed datum, as far as its header says that there is input. The last
one that starts before this end may reach two bytes behind it. -/
def sourceTokens (source : ℕ → UInt8) : List Token :=
  tokens 0 0 (window source 8 (varsize (le32 source 0)-6))

theorem sourceWindow_covers (source : ℕ → UInt8) :
    varsize (le32 source 0)+2 ≤ 8+(window source 8 (varsize (le32 source 0)-6)).length := by
  rw [length_window]
  omega

theorem decode_leaves {source : ℕ → UInt8} (hraw : 0 ≤ int32 (le32 source 4)) (dest : ℕ → UInt8) :
    StopsAt (varsize (le32 source 0)) (int32 (le32 source 4))
      (fun s o t => Leaves (varsize (le32 source 0)) (int32 (le32 source 4)) s o t
        (decode source (varsize (le32 source 0)) (int32 (le32 source 4))
          (varsize (le32 source 0)) (.start dest))) 8 0 (sourceTokens source) := by
  exact proceed_tokens (tokenwise_leaves source _ _ _) (missing_of_covers (sourceWindow_covers source))
    0 0 _ (varsize (le32 source 0)) (.start dest) (holds_window source 8 _) rfl (Nat.le_add_left _ _) hraw

/-- The output consists of exactly `rawsize` bytes, each of which was stored. -/
structure Complete (rawsize : ℤ) (s : Decoder) : Prop where
  dp : (s.dp : ℤ) = rawsize
  stored : ∀ i : ℕ, (i : ℤ) < rawsize → .store i ∈ s.log

theorem inductive_stored (src : ℕ → UInt8) (srcend : ℕ) (destend : ℤ) :
    Inductive src srcend destend fun s => (s.dp : ℤ) ≤ destend → ∀ i < s.dp, .store i ∈ s.log where
  control s h _ _ hle i hi := List.mem_cons_of_mem _ (h hle i hi)
  literal s h _ hd _ i hi := by
    simp only [Decoder.literal,List.mem_cons,Access.store.injEq,reduceCtorEq,false_or] at hi ⊢
    rcases Nat.lt_succ_iff_lt_or_eq.mp hi with hi | hi
    · exact .inr (h (by omega) i hi)
    · exact .inl hi
  tag s h _ hle i hi := by
    rw [readTag_dp] at hle hi
    have := h hle i hi
    simp only [readTag]
    split <;> simp [Decoder.fetch,this]
  overrun s len _ ho hle := absurd ho (by simp only [Decoder.skip] at hle; push_cast at hle; omega)
  copy s off h _ hd _ i hi := by
    simp only [Decoder.copyByte,List.mem_cons,Access.store.injEq,reduceCtorEq,false_or] at hi ⊢
    rcases Nat.lt_succ_iff_lt_or_eq.mp hi with hi | hi
    · exact .inr (h (by omega) i hi)
    · exact .inl hi
  giveup s h _ hle i hi := List.mem_cons_of_mem _ (List.mem_cons_of_mem _ (h hle i hi))

theorem pglzDecompress_stored (source dest : ℕ → UInt8)
    (h : ((pglzDecompress source dest).state.dp : ℤ) = int32 (le32 source 4)) :
    Complete (int32 (le32 source 4)) (pglzDecompress source dest).state := by
  have hI := decode_invariant (inductive_stored source (varsize (le32 source 0)) (int32 (le32 source 4)))
    (varsize (le32 source 0)) (.start dest) fun _ i hi => absurd hi (Nat.not_lt_zero i)
  rw [← pglzDecompress_state] at hI
  exact ⟨h,fun i hi => hI h.le i (by omega)⟩

/-- The way out is silent: no give-up and no abort, with output missing. Either the input ends
right in front of the token, or the token is a match before the end that overruns the output. -/
def Silent (srcend : ℕ) (destend : ℤ) (s o : ℕ) (t : Token) : Prop :=
  (s = srcend ∧ (o : ℤ) < destend) ∨ (s < srcend ∧ t.Overruns destend o)

theorem pglzDecompress_of_ok {source dest : ℕ → UInt8} {f : Decoder}
    (h : decode source (varsize (le32 source 0)) (int32 (le32 source 4)) (varsize (le32 source 0))
      (.start dest) = .ok f) :
    pglzDecompress source dest =
      ⟨if (f.dp : ℤ) < int32 (le32 source 4) ∧ f.sp ≠ varsize (le32 source 0) then .aborted
        else .returned,f⟩ := by
  simp only [pglzDecompress,h]
  split <;> rfl

theorem pglzDecompress_of_error {source dest : ℕ → UInt8} {f : Decoder}
    (h : decode source (varsize (le32 source 0)) (int32 (le32 source 4)) (varsize (le32 source 0))
      (.start dest) = .error f) : pglzDecompress source dest = ⟨.gaveUp,f⟩ := by
  simp only [pglzDecompress,h]

/-- A decompression that returns has produced all of its output if and only if the token that
stops it is not one at which the way out is silent. -/
theorem pglzDecompress_complete_iff (source dest : ℕ → UInt8) (hraw : 0 ≤ int32 (le32 source 4)) :
    ((pglzDecompress source dest).exit = .returned →
        Complete (int32 (le32 source 4)) (pglzDecompress source dest).state) ↔
      ¬ StopsAt (varsize (le32 source 0)) (int32 (le32 source 4))
        (Silent (varsize (le32 source 0)) (int32 (le32 source 4))) 8 0 (sourceTokens source) := by
  rw [iff_not_comm]
  refine (decode_leaves hraw dest).iff fun s o t h => ?_
  generalize hr : decode source _ _ _ (.start dest) = r at h
  have hstored := pglzDecompress_stored source dest
  cases h with
  | stay f sp dp fits at_end =>
    rw [pglzDecompress_of_ok hr,sp,dp] at hstored ⊢
    simp only [Silent]
    by_cases hlt : (o : ℤ) < int32 (le32 source 4)
    · by_cases hs : s = varsize (le32 source 0)
      · refine iff_of_true (.inl ⟨hs,hlt⟩) fun h => ?_
        have hc := (h (if_neg fun hn => hn.2 hs)).dp
        rw [dp] at hc
        omega
      · refine iff_of_false ?_ (not_not.mpr fun h => ?_)
        · rintro (⟨h,-⟩ | ⟨h,-⟩)
          · exact hs h
          · omega
        · rw [if_pos ⟨hlt,hs⟩] at h
          cases h
    · refine iff_of_false ?_ (not_not.mpr fun _ => hstored (by omega))
      rintro (⟨-,h⟩ | ⟨h,ho⟩)
      · exact hlt h
      · rcases at_end with hend | ⟨-,hno⟩
        · omega
        · exact hno ho
  | overrun f dp before overruns =>
    rw [pglzDecompress_of_ok hr]
    refine iff_of_true (.inr ⟨before,overruns⟩) fun h => ?_
    have hc := (h (if_neg (by omega))).dp
    dsimp only at hc
    omega
  | giveup f before fits =>
    rw [pglzDecompress_of_error hr]
    refine iff_of_false ?_ (not_not.mpr fun h => by cases h)
    rintro (⟨h,-⟩ | ⟨-,ho⟩)
    · omega
    · exact fits ho

/-- A datum of four bytes whose input ends behind the first control byte. -/
def cutSource : ℕ → UInt8 := fun i => ([36,0,0,0,4,0,0,0,0] : List UInt8).getD i 0xff

theorem pglzDecompress_complete_cutSource :
    ((pglzDecompress cutSource fun _ => 0).exit = .returned →
        Complete 4 (pglzDecompress cutSource fun _ => 0).state) ↔
      ¬ StopsAt 9 4 (Silent 9 4) 8 0 (sourceTokens cutSource) :=
  pglzDecompress_complete_iff cutSource (fun _ => 0) (by decide)

theorem not_complete_cutSource : 0 ≤ int32 (le32 cutSource 4) ∧
    (pglzDecompress cutSource fun _ => 0).exit = .returned ∧
    ¬ ((pglzDecompress cutSource fun _ => 0).exit = .returned →
        Complete (int32 (le32 cutSource 4)) (pglzDecompress cutSource fun _ => 0).state) := by
  have hexit : (pglzDecompress cutSource fun _ => 0).exit = .returned := by decide
  refine ⟨by decide,hexit,fun h => ?_⟩
  have hdp := (h hexit).dp
  revert hdp
  decide

end PageDumper
