import PageDumper.PglzDecompress

/-! The stream that `pglz_decompress` reads, cut into tokens, and what the rest of a run does at
each kind of token: it stops there, or it goes on behind it with more output. -/
namespace PageDumper
open Memory Words

/-- What the decoder meets in a byte stream: a control byte, a literal, a tag (with its
number of bytes, offset and length), or a tag of which the stream has only a part. -/
inductive Token
  | control | literal | tag (bytes off len : ℕ) | cut
  deriving DecidableEq

/-- The tokens of a stream, when `k` items of the control byte `ctrl` are still to come. The
last token is the one for which there are not enough bytes. -/
def tokens : ℕ → ℕ → List UInt8 → List Token
  | 0, _, [] => [.control]
  | 0, _, c::l => .control::tokens 8 c.toNat l
  | k+1, ctrl, l =>
    if ctrl &&& 1 ≠ 0 then
      match l with
      | t1::t2::l =>
        let len := (t1.toNat &&& 0x0f)+3
        let off := ((t1.toNat &&& 0xf0) <<< 4) ||| t2.toNat
        if len = 18 then
          match l with
          | t3::l => .tag 3 off (len+t3.toNat)::tokens k (ctrl >>> 1) l
          | [] => [.cut]
        else .tag 2 off len::tokens k (ctrl >>> 1) l
      | _ => [.cut]
    else
      match l with
      | _::l => .literal::tokens k (ctrl >>> 1) l
      | [] => [.literal]

namespace Token

def bytes : Token → ℕ
  | control | literal => 1
  | tag n _ _ => n
  | cut => 0

def output : Token → ℕ
  | literal => 1
  | tag _ _ len => len
  | _ => 0

/-- The decoder goes no further than this token, found at source offset `s` when `o` bytes of
output exist: it is at the header's length, the output is complete or would overflow, or
the tag points before the start of the output. -/
def Stops (srcend : ℕ) (destend : ℤ) (s o : ℕ) : Token → Prop
  | control | literal => srcend ≤ s ∨ destend ≤ o
  | tag _ off len => srcend ≤ s ∨ destend < o+len ∨ o < off
  | cut => srcend ≤ s

end Token

theorem Token.stops_of_le {srcend : ℕ} {destend : ℤ} {s o : ℕ} (t : Token) (h : srcend ≤ s) :
    t.Stops srcend destend s o := by
  cases t with
  | cut => exact h
  | _ => exact .inl h

theorem Token.stops_of_full {srcend : ℕ} {destend : ℤ} {s o : ℕ} {t : Token}
    (ht : t = .control ∨ t = .literal) (h : destend ≤ o) : t.Stops srcend destend s o := by
  rcases ht with rfl | rfl <;> exact .inr h

def StopsWithin (srcend : ℕ) (destend : ℤ) : ℕ → ℕ → List Token → Prop
  | _, _, [] => False
  | s, o, t::ts => t.Stops srcend destend s o ∨
      StopsWithin srcend destend (s+t.bytes) (o+t.output) ts

theorem length_le_one {l : List UInt8} (h : ∀ a b l', l = a::b::l' → False) : l.length ≤ 1 := by
  rcases l with _ | ⟨a,_ | ⟨b,l⟩⟩
  · simp
  · simp
  · exact absurd rfl (h a b l)

theorem copyTag_of_le (off len : ℕ) {s : Decoder} (h : off ≤ s.dp) :
    ∃ s', copyTag off len s = .ok s' ∧ s'.sp = s.sp ∧ s'.dp = s.dp+len ∧
      ∀ i : ℕ, .source i ∈ s'.log ↔ .source i ∈ s.log := by
  induction len generalizing s with
  | zero => exact ⟨s,rfl,rfl,rfl,fun i => Iff.rfl⟩
  | succ len ih =>
    obtain ⟨s',hs',hsp,hdp,hlog⟩ := ih (s := s.copyByte off) (Nat.le_succ_of_le h)
    refine ⟨s',by simp [copyTag,h,hs'],hsp,?_,fun i => (hlog i).trans ?_⟩
    · rw [hdp]
      simp only [Decoder.copyByte]
      omega
    · simp [Decoder.copyByte]

theorem copyTag_of_lt {off len : ℕ} {s : Decoder} (h : s.dp < off) (hlen : 0 < len) :
    copyTag off len s = .error s.giveup := by
  obtain ⟨n,rfl⟩ : ∃ n, len = n+1 := ⟨len-1,by omega⟩
  rw [copyTag,if_neg (by omega)]

theorem readTag_two {t1 t2 : UInt8} {s : Decoder} (h₁ : src s.sp = t1) (h₂ : src (s.sp+1) = t2)
    (hlen : ¬ (t1.toNat &&& 0x0f)+3 = 18) :
    readTag src s = (((t1.toNat &&& 0x0f)+3,((t1.toNat &&& 0xf0) <<< 4) ||| t2.toNat),
      { s with sp := s.sp+2, log := .source (s.sp+1)::.source s.sp::s.log }) := by
  simp only [readTag,h₁,h₂,if_neg hlen]

theorem readTag_three {t1 t2 t3 : UInt8} {s : Decoder} (h₁ : src s.sp = t1)
    (h₂ : src (s.sp+1) = t2) (h₃ : src (s.sp+2) = t3) (hlen : (t1.toNat &&& 0x0f)+3 = 18) :
    readTag src s = (((t1.toNat &&& 0x0f)+3+t3.toNat,((t1.toNat &&& 0xf0) <<< 4) ||| t2.toNat),
      { s with sp := s.sp+3, log := .source (s.sp+2)::.source (s.sp+1)::.source s.sp::s.log }) := by
  simp only [readTag,h₁,h₂,if_pos hlen,Decoder.fetch,h₃]

section Stepping

variable {src : ℕ → UInt8} {srcend : ℕ} {destend : ℤ}

/-- The rest of a run, with `k` items of the current control byte to go. -/
def proceed (src : ℕ → UInt8) (srcend : ℕ) (destend : ℤ) (fuel k ctrl : ℕ) (s : Decoder) :
    Except Decoder Decoder :=
  (items src srcend destend k ctrl s).bind (decode src srcend destend fuel)

theorem proceed_invariant {I : Decoder → Prop} (hI : Inductive src srcend destend I)
    (fuel k ctrl : ℕ) {s : Decoder} (hs : I s) :
    I (final (proceed src srcend destend fuel k ctrl s)) :=
  final_bind (items_invariant hI k ctrl s hs) fun s' _ hs' => decode_invariant hI fuel s' hs'

theorem proceed_control {fuel ctrl : ℕ} {s : Decoder} (h : s.sp < srcend ∧ (s.dp : ℤ) < destend) :
    proceed src srcend destend (fuel+1) 0 ctrl s =
      proceed src srcend destend fuel 8 (src s.sp).toNat (s.fetch src).2 := by
  change decode src srcend destend (fuel+1) s = _
  rw [decode,if_pos h]
  rfl

theorem proceed_control_stop {fuel ctrl : ℕ} {s : Decoder} (h : srcend ≤ s.sp ∨ destend ≤ s.dp) :
    proceed src srcend destend fuel 0 ctrl s = .ok s := by
  simp only [proceed,items,Except.bind,decode_stop fuel h]

theorem proceed_end {fuel k ctrl : ℕ} {s : Decoder} (h : srcend ≤ s.sp) :
    proceed src srcend destend fuel (k+1) ctrl s = .ok s := by
  simp only [proceed,items,if_neg (Nat.not_lt.mpr h),Except.bind,decode_stop fuel (.inl h)]

theorem proceed_literal {fuel k ctrl : ℕ} {s : Decoder} (hb : ¬ ctrl &&& 1 ≠ 0) (h : s.sp < srcend)
    (hd : (s.dp : ℤ) < destend) :
    proceed src srcend destend fuel (k+1) ctrl s =
      proceed src srcend destend fuel k (ctrl >>> 1) (s.literal src) := by
  simp only [proceed,items,if_pos h,if_neg hb,if_neg (Int.not_le.mpr hd)]

theorem proceed_literal_full {fuel k ctrl : ℕ} {s : Decoder} (hb : ¬ ctrl &&& 1 ≠ 0)
    (hd : destend ≤ s.dp) : proceed src srcend destend fuel (k+1) ctrl s = .ok s := by
  by_cases h : s.sp < srcend
  · simp only [proceed,items,if_pos h,if_neg hb,if_pos hd,Except.bind,decode_stop fuel (.inr hd)]
  · exact proceed_end (by omega)

theorem proceed_tag_overrun {fuel k ctrl : ℕ} {s : Decoder} (hb : ctrl &&& 1 ≠ 0) (h : s.sp < srcend)
    (ho : destend < s.dp+(readTag src s).1.1) :
    proceed src srcend destend fuel (k+1) ctrl s =
      .ok ((readTag src s).2.skip (readTag src s).1.1) := by
  have hd : destend ≤ ((readTag src s).2.skip (readTag src s).1.1).dp := by
    simp only [Decoder.skip,readTag_dp]
    push_cast
    omega
  simp only [proceed,items,if_pos h,if_pos hb,readTag_dp,if_pos ho,Except.bind,decode_stop fuel (.inr hd)]

theorem proceed_tag_giveup {fuel k ctrl : ℕ} {s : Decoder} (hb : ctrl &&& 1 ≠ 0) (h : s.sp < srcend)
    (ho : ¬ destend < s.dp+(readTag src s).1.1) (hoff : s.dp < (readTag src s).1.2) :
    proceed src srcend destend fuel (k+1) ctrl s = .error (readTag src s).2.giveup := by
  have hlen := le_readTag_len src s
  have hc : copyTag (readTag src s).1.2 (readTag src s).1.1 (readTag src s).2 =
      .error (readTag src s).2.giveup := copyTag_of_lt (by rw [readTag_dp]; exact hoff) (by omega)
  simp only [proceed,items,if_pos h,if_pos hb,readTag_dp,if_neg ho,hc,Except.bind]

theorem proceed_copied (fuel k : ℕ) {ctrl : ℕ} {s s' : Decoder} (hb : ctrl &&& 1 ≠ 0)
    (h : s.sp < srcend) (ho : ¬ destend < s.dp+(readTag src s).1.1)
    (hc : copyTag (readTag src s).1.2 (readTag src s).1.1 (readTag src s).2 = .ok s') :
    proceed src srcend destend fuel (k+1) ctrl s =
      proceed src srcend destend fuel k (ctrl >>> 1) s' := by
  simp only [proceed,items,if_pos h,if_pos hb,readTag_dp,if_neg ho,hc,Except.bind]

theorem inductive_mem_log (src : ℕ → UInt8) (srcend : ℕ) (destend : ℤ) (a : Access) :
    Inductive src srcend destend (fun s => a ∈ s.log) where
  control s h _ _ := by simp [Decoder.fetch,h]
  literal s h _ _ := by simp [Decoder.literal,h]
  tag s h _ := by
    simp only [readTag]
    split <;> simp [Decoder.fetch,h]
  overrun s len h _ := h
  copy s off h _ _ := by simp [Decoder.copyByte,h]
  giveup s h _ := by simp [Decoder.giveup,h]

theorem mem_log_proceed {a : Access} {fuel k ctrl : ℕ} {s : Decoder} (h : a ∈ s.log) :
    a ∈ (final (proceed src srcend destend fuel k ctrl s)).log :=
  proceed_invariant (inductive_mem_log src srcend destend a) fuel k ctrl h

theorem mem_log_proceed_tag {a : Access} (fuel k : ℕ) {ctrl : ℕ} {s : Decoder} (hb : ctrl &&& 1 ≠ 0)
    (h : s.sp < srcend) (ha : a ∈ (readTag src s).2.log) :
    a ∈ (final (proceed src srcend destend fuel (k+1) ctrl s)).log := by
  have hlen := le_readTag_len src s
  have hI := inductive_mem_log src srcend destend a
  simp only [proceed,items,if_pos h,if_pos hb]
  split
  · exact decode_invariant hI fuel _ ha
  · rename_i ho
    rw [readTag_dp] at ho
    have hc : a ∈ (final (copyTag (readTag src s).1.2 (readTag src s).1.1 (readTag src s).2)).log :=
      copyTag_invariant hI _ _ _ ha (by omega) (by rw [readTag_dp]; omega)
    exact final_bind (I := fun s => a ∈ s.log)
      (final_bind hc fun s' _ hs' => items_invariant hI k (ctrl >>> 1) s' hs')
      fun s' _ hs' => decode_invariant hI fuel s' hs'

theorem mem_log_readTag (src : ℕ → UInt8) (s : Decoder) :
    Access.source (s.sp+1) ∈ (readTag src s).2.log := by
  simp only [readTag]
  split <;> simp [Decoder.fetch]

/-- What has to be shown of the single tokens for a property of the rest of a run, told from how
the run leaves, the state it starts in and the tokens it meets; all bytes of these lie below `n`. -/
structure Tokenwise (src : ℕ → UInt8) (srcend : ℕ) (destend : ℤ) (n : ℕ)
    (M : Except Decoder Decoder → Decoder → List Token → Prop) : Prop where
  at_end : ∀ s t ts, srcend ≤ s.sp → M (.ok s) s (t::ts)
  full : ∀ s t ts, t = .control ∨ t = .literal → destend ≤ s.dp → M (.ok s) s (t::ts)
  control : ∀ r s ts, s.sp < n → s.sp < srcend → (s.dp : ℤ) < destend → M r (s.fetch src).2 ts →
    M r s (.control::ts)
  literal : ∀ r s ts, s.sp < n → s.sp < srcend → (s.dp : ℤ) < destend → M r (s.literal src) ts →
    M r s (.literal::ts)
  overrun : ∀ s (b off len : ℕ) ts, (readTag src s).2.sp ≤ n → s.sp < srcend → destend < s.dp+len →
    M (.ok ((readTag src s).2.skip len)) s (.tag b off len::ts)
  giveup : ∀ s (b off len : ℕ) ts, (readTag src s).2.sp ≤ n → s.sp < srcend →
    ¬ destend < s.dp+len → s.dp < off → M (.error (readTag src s).2.giveup) s (.tag b off len::ts)
  copied : ∀ fuel k ctrl s s' (b off len : ℕ) ts, (readTag src s).2.sp ≤ n → s.sp < srcend →
    ¬ destend < s.dp+len → off ≤ s.dp → 3 ≤ len → copyTag off len (readTag src s).2 = .ok s' →
    s'.sp = s.sp+b → s'.dp = s.dp+len →
    M (proceed src srcend destend fuel k ctrl s') s' ts →
    M (proceed src srcend destend fuel k ctrl s') s (.tag b off len::ts)

variable {n : ℕ} {M : Except Decoder Decoder → Decoder → List Token → Prop}

theorem Tokenwise.tag (hM : Tokenwise src srcend destend n M) {b off len : ℕ} {fuel k ctrl : ℕ}
    {s : Decoder} {ts : List Token} (hb : ctrl &&& 1 ≠ 0) (htag : (readTag src s).1 = (len,off))
    (hsp : (readTag src s).2.sp = s.sp+b) (hn : s.sp+b ≤ n)
    (ih : ∀ s' : Decoder, s'.sp = s.sp+b → M (proceed src srcend destend fuel k (ctrl >>> 1) s') s' ts) :
    M (proceed src srcend destend fuel (k+1) ctrl s) s (.tag b off len::ts) := by
  have hlen : (readTag src s).1.1 = len := by rw [htag]
  have hoff : (readTag src s).1.2 = off := by rw [htag]
  have hthree := le_readTag_len src s
  by_cases hend : srcend ≤ s.sp
  · rw [proceed_end hend]
    exact hM.at_end s _ ts hend
  by_cases hover : destend < s.dp+len
  · rw [proceed_tag_overrun hb (by omega) (by rw [hlen]; exact hover),hlen]
    exact hM.overrun s b off len ts (by omega) (by omega) hover
  by_cases hback : s.dp < off
  · rw [proceed_tag_giveup hb (by omega) (by rw [hlen]; exact hover) (by rw [hoff]; exact hback)]
    exact hM.giveup s b off len ts (by omega) (by omega) hover hback
  · obtain ⟨s',hc,hsp',hdp',-⟩ := copyTag_of_le off len (s := (readTag src s).2)
      (by rw [readTag_dp]; omega)
    rw [hsp] at hsp'
    rw [readTag_dp] at hdp'
    rw [proceed_copied fuel k hb (by omega) (by rw [hlen]; exact hover) (by rw [hlen,hoff]; exact hc)]
    exact hM.copied fuel k (ctrl >>> 1) s s' b off len ts (by omega) (by omega) hover (by omega)
      (by omega) hc hsp' hdp' (ih s' hsp')

/-- What has to be shown of a token for which bytes are missing: the run does not stop there, and
it reads one that is missing. -/
def Missing (srcend : ℕ) (destend : ℤ) (n : ℕ)
    (M : Except Decoder Decoder → Decoder → List Token → Prop) : Prop :=
  ∀ r s t j, ¬ t.Stops srcend destend s.sp s.dp → s.sp < srcend → n < s.sp+3 → n ≤ j →
    .source j ∈ (final r).log → M r s [t]

/-- The rest of a run from any point of a stream on, told from the tokens of the stream. -/
theorem proceed_tokens (hM : Tokenwise src srcend destend n M) (hmissing : Missing srcend destend n M)
    (k ctrl : ℕ) (l : List UInt8) (fuel : ℕ) (s : Decoder) (hsrc : Holds src s.sp l)
    (hl : s.sp+l.length = n) (hf : srcend ≤ s.sp+fuel) :
    M (proceed src srcend destend fuel k ctrl s) s (tokens k ctrl l) := by
  fun_induction tokens k ctrl l generalizing fuel s with
  | case1 ctrl =>
    rw [List.length_nil] at hl
    by_cases hend : srcend ≤ s.sp
    · rw [proceed_control_stop (.inl hend)]
      exact hM.at_end s _ [] hend
    by_cases hfull : destend ≤ s.dp
    · rw [proceed_control_stop (.inr hfull)]
      exact hM.full s _ [] (.inl rfl) hfull
    · obtain ⟨fuel,rfl⟩ : ∃ f, fuel = f+1 := ⟨fuel-1,by omega⟩
      rw [proceed_control (by omega)]
      exact hmissing _ s _ s.sp (by simp only [Token.Stops]; omega) (by omega) (by omega) (by omega)
        (mem_log_proceed (by simp [Decoder.fetch]))
  | case2 ctrl c l ih =>
    rw [holds_cons] at hsrc
    rw [List.length_cons] at hl
    by_cases hend : srcend ≤ s.sp
    · rw [proceed_control_stop (.inl hend)]
      exact hM.at_end s _ _ hend
    by_cases hfull : destend ≤ s.dp
    · rw [proceed_control_stop (.inr hfull)]
      exact hM.full s _ _ (.inl rfl) hfull
    · obtain ⟨fuel,rfl⟩ : ∃ f, fuel = f+1 := ⟨fuel-1,by omega⟩
      rw [proceed_control (by omega),hsrc.1]
      exact hM.control _ s _ (by omega) (by omega) (by omega) (ih fuel (s.fetch src).2 hsrc.2
        (by simp only [Decoder.fetch]; omega) (by simp only [Decoder.fetch]; omega))
  | case3 k ctrl hb t1 t2 len off hlen t3 l ih =>
    simp only [holds_cons,List.length_cons,Nat.add_assoc] at hsrc hl
    have ht := readTag_three hsrc.1 hsrc.2.1 hsrc.2.2.1 hlen
    exact hM.tag hb (by rw [ht]) (by rw [ht]) (by omega) fun s' hsp =>
      ih fuel s' (by rw [hsp]; exact hsrc.2.2.2) (by omega) (by omega)
  | case4 k ctrl hb t1 t2 len hlen =>
    simp only [holds_cons,List.length_cons,List.length_nil] at hsrc hl
    have ht := readTag_three hsrc.1 hsrc.2.1 rfl hlen
    by_cases hend : srcend ≤ s.sp
    · rw [proceed_end hend]
      exact hM.at_end s _ [] hend
    · exact hmissing _ s _ (s.sp+2) hend (by omega) (by omega) (by omega)
        (mem_log_proceed_tag fuel k hb (by omega) (by simp [ht]))
  | case5 k ctrl hb t1 t2 l len off hlen ih =>
    simp only [holds_cons,List.length_cons,Nat.add_assoc] at hsrc hl
    have ht := readTag_two hsrc.1 hsrc.2.1 hlen
    exact hM.tag hb (by rw [ht]) (by rw [ht]) (by omega) fun s' hsp =>
      ih fuel s' (by rw [hsp]; exact hsrc.2.2) (by omega) (by omega)
  | case6 k ctrl l hb hshort =>
    have hl' := length_le_one hshort
    by_cases hend : srcend ≤ s.sp
    · rw [proceed_end hend]
      exact hM.at_end s _ [] hend
    · exact hmissing _ s _ (s.sp+1) hend (by omega) (by omega) (by omega)
        (mem_log_proceed_tag fuel k hb (by omega) (mem_log_readTag src s))
  | case7 k ctrl hb c l ih =>
    rw [holds_cons] at hsrc
    rw [List.length_cons] at hl
    by_cases hend : srcend ≤ s.sp
    · rw [proceed_end hend]
      exact hM.at_end s _ _ hend
    by_cases hfull : destend ≤ s.dp
    · rw [proceed_literal_full hb hfull]
      exact hM.full s _ _ (.inr rfl) hfull
    · rw [proceed_literal hb (by omega) (by omega)]
      refine hM.literal _ s _ (by omega) (by omega) (by omega) (ih fuel (s.literal src) hsrc.2 ?_ ?_) <;>
        simp only [Decoder.literal] <;> omega
  | case8 k ctrl hb =>
    rw [List.length_nil] at hl
    by_cases hend : srcend ≤ s.sp
    · rw [proceed_end hend]
      exact hM.at_end s _ [] hend
    by_cases hfull : destend ≤ s.dp
    · rw [proceed_literal_full hb hfull]
      exact hM.full s _ [] (.inr rfl) hfull
    · rw [proceed_literal hb (by omega) (by omega)]
      exact hmissing _ s _ s.sp (by simp only [Token.Stops]; omega) (by omega) (by omega) (by omega)
        (mem_log_proceed (by simp [Decoder.literal]))

/-- A token that starts before the end of the input has its bytes in a stream that reaches two
bytes behind this end. -/
theorem missing_of_covers (h : srcend+2 ≤ n) : Missing srcend destend n M := by
  intro r s t j _ hsp hn _ _
  omega

end Stepping

end PageDumper
