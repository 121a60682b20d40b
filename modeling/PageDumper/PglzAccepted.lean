import PageDumper.PglzCopies
import PageDumper.PglzRoundTrip

/-! What `pglz_decompress` accepts. The runs that return with all of their output, stay inside the
input and load no output byte before they store it are those on an input that starts with the
coding of a stream of the format, and they write the text of that stream. -/
namespace PageDumper
open Memory Words Grouping LZ77

/-- The bytes code the items as `encode` does, except for control bits behind the last item of a
group of fewer than eight. They are free where the input ends; elsewhere the first one is zero. -/
inductive Codes (atEnd : Prop) : List (Item UInt8) → List UInt8 → Prop
  | nil : Codes atEnd [] []
  | last {g : List (Item UInt8)} {c : UInt8} (hne : g ≠ []) (hlen : g.length < 8)
      (hc : c.toNat%2^g.length = controlBits g) (hspare : atEnd ∨ c.toNat/2^g.length%2 = 0) :
      Codes atEnd g (c::g.flatMap encodeItem)
  | group {g is : List (Item UInt8)} {l : List UInt8} (hlen : g.length = 8) (h : Codes atEnd is l) :
      Codes atEnd (g ++ is) (encodeGroup g ++ l)

theorem Codes.length {atEnd : Prop} {is : List (Item UInt8)} {l : List UInt8} (h : Codes atEnd is l) :
    l.length = (encode is).length := by
  induction h with
  | nil => simp [encode]
  | last hne hlen => simp [encode_group hne (Nat.le_of_lt hlen),encodeGroup]
  | @group g is l hlen h ih =>
    have hne : g ≠ [] := List.ne_nil_of_length_pos (by omega)
    rw [encode_append (by omega),encode_group hne (Nat.le_of_eq hlen),List.length_append,
      List.length_append,ih]

theorem readTag_coded {src : ℕ → UInt8} {s : Decoder} (h : (readTag src s).1.2 ≠ 0) :
    Codable (.backref (readTag src s).1.2 (readTag src s).1.1) ∧
      Holds src s.sp (encodeItem (.backref (readTag src s).1.2 (readTag src s).1.1)) := by
  have ht₁ := (src s.sp).toNat_lt
  have ht₂ := (src (s.sp+1)).toNat_lt
  have hsplit : 16*((src s.sp).toNat/16)+(src s.sp).toNat%16 = (src s.sp).toNat := Nat.div_add_mod _ 16
  have hoff : (((src s.sp).toNat &&& 0xf0) <<< 4) ||| (src (s.sp+1)).toNat =
      256*((src s.sp).toNat/16)+(src (s.sp+1)).toNat := by
    conv_lhs => rw [← hsplit]
    exact tag_offset (by omega) (Nat.mod_lt _ (by omega)) ht₂
  have hdiv : (256*((src s.sp).toNat/16)+(src (s.sp+1)).toNat)/256 = (src s.sp).toNat/16 := by omega
  have hmod : (256*((src s.sp).toNat/16)+(src (s.sp+1)).toNat)%256 = (src (s.sp+1)).toNat := by omega
  by_cases hlen : ((src s.sp).toNat &&& 0x0f)+3 = 18
  · rw [readTag_three rfl rfl rfl hlen,hoff] at h ⊢
    have ht₃ := (src (s.sp+2)).toNat_lt
    have hnibble : 16*((src s.sp).toNat/16)+15 = (src s.sp).toNat := by
      rw [and_0f] at hlen
      omega
    simp only [Codable,hlen,encodeItem,if_neg (show ¬18+(src (s.sp+2)).toNat ≤ 17 by omega),hdiv,hmod,
      hnibble,Nat.add_sub_cancel_left,UInt8.ofNat_toNat,holds_cons,holds_nil,and_true] at h ⊢
    omega
  · rw [readTag_two rfl rfl hlen,hoff] at h ⊢
    rw [and_0f] at hlen ⊢
    have hle : (src s.sp).toNat%16+3 ≤ 17 := by omega
    simp only [Codable,encodeItem,if_pos hle,hdiv,hmod,Nat.add_sub_cancel,hsplit,UInt8.ofNat_toNat,
      holds_cons,holds_nil,and_true] at h ⊢
    omega

theorem LoadsWritten.suffix {log log' : List Access} (h : LoadsWritten log) (hs : log' <:+ log) :
    LoadsWritten log' := fun i earlier he => h i earlier (he.trans hs)

theorem LoadsWritten.not_copiedUnwritten {log : List Access} (h : LoadsWritten log) (i : ℕ) :
    ¬CopiedUnwritten i log := by
  rintro ⟨earlier,he,hi⟩
  exact hi (h i earlier ((List.suffix_cons ..).trans he))

theorem TakesItem.filled {src : ℕ → UInt8} {i : Item UInt8} {s t : Decoder} (h : TakesItem src i s t)
    (hc : Codable i) (hf : Filled s) : Filled t := by
  cases i with
  | literal b =>
    obtain rfl : t = s.literal src := h
    exact hf.literal src
  | backref off len =>
    obtain ⟨u,hu,hcopy⟩ := h
    have hfu := hf.readTag src
    rw [hu] at hfu
    exact hfu.copyTag (Nat.ne_of_gt hc.1.1) hcopy

theorem Takes.filled {src : ℕ → UInt8} {g : List (Item UInt8)} {s t : Decoder} (h : Takes src g s t)
    (hc : ∀ i ∈ g, Codable i) (hf : Filled s) : Filled t := by
  induction g generalizing s with
  | nil =>
    obtain rfl : t = s := h
    exact hf
  | cons i g ih =>
    obtain ⟨u,hu,hg⟩ := h
    obtain ⟨hci,hcg⟩ := List.forall_mem_cons.mp hc
    exact ih hg hcg (hu.filled hci hf)

/-- Between two states the decoder took the items `is` from the bytes `l`. -/
structure Taken (src : ℕ → UInt8) (bound : ℕ) (base : ℕ → UInt8) (s t : Decoder) (out : List UInt8)
    (is : List (Item UInt8)) (l : List UInt8) : Prop where
  codable : ∀ i ∈ is, Codable i
  valid : ValidFrom out.length is
  bytes : Holds src s.sp l
  sp : t.sp = s.sp+l.length
  produced : Produced bound base t (is.foldl Item.emit out)
  filled : Filled t

section Taking

variable {src base : ℕ → UInt8} {srcend bound : ℕ} {destend : ℤ} {s t u : Decoder} {out : List UInt8}

theorem Taken.refl (h : Produced bound base s out) (hf : Filled s) :
    Taken src bound base s s out [] [] :=
  ⟨by simp,trivial,holds_nil _ _,rfl,h,hf⟩

theorem Taken.trans {is js : List (Item UInt8)} {l k : List UInt8}
    (h : Taken src bound base s t out is l)
    (h' : Taken src bound base t u (is.foldl Item.emit out) js k) :
    Taken src bound base s u out (is ++ js) (l ++ k) := by
  refine ⟨List.forall_mem_append.mpr ⟨h.codable,h'.codable⟩,?_,?_,?_,?_,h'.filled⟩
  · have hv := h'.valid
    rw [length_foldl_emit] at hv
    exact (validFrom_append _ _ _).mpr ⟨h.valid,hv⟩
  · have hb := h'.bytes
    rw [h.sp] at hb
    exact holds_append.mpr ⟨h.bytes,hb⟩
  · rw [h'.sp,h.sp,List.length_append,Nat.add_assoc]
  · rw [List.foldl_append]
    exact h'.produced

theorem Taken.control {is : List (Item UInt8)} {l : List UInt8}
    (h : Taken src bound base (s.fetch src).2 t out is l) :
    Taken src bound base s t out is (src s.sp::l) := by
  refine ⟨h.codable,h.valid,holds_cons.mpr ⟨rfl,h.bytes⟩,?_,h.produced,h.filled⟩
  rw [h.sp,List.length_cons]
  simp only [Decoder.fetch]
  omega

theorem taken_literal (h : Produced bound base s out) (hf : Filled s) (hsp : s.sp < bound) :
    Taken src bound base s (s.literal src) out [.literal (src s.sp)]
      (encodeItem (.literal (src s.sp))) where
  codable := by simp [Codable]
  valid := trivial
  bytes := holds_cons.mpr ⟨rfl,holds_nil _ _⟩
  sp := rfl
  produced := h.literal src hsp
  filled := hf.literal src

/-- A tag that the copy loop follows to its end, when no byte was copied onto itself, is an item. -/
theorem taken_tag (h : Produced bound base s out) (hf : Filled s) (hsp : s.sp+2 < bound)
    (hc : copyTag (readTag src s).1.2 (readTag src s).1.1 (readTag src s).2 = .ok t)
    (hw : LoadsWritten t.log) :
    Taken src bound base s t out [.backref (readTag src s).1.2 (readTag src s).1.1]
      (encodeItem (.backref (readTag src s).1.2 (readTag src s).1.1)) := by
  have hlen := le_readTag_len src s
  have hft := hf.readTag src
  have hzero : (readTag src s).1.2 ≠ 0 := by
    intro h₀
    rw [h₀] at hc
    obtain ⟨-,hcopied⟩ := copyTag_zero (fun i hi => (hft.stores i).mp hi) hc
    exact hw.not_copiedUnwritten _ (hcopied 0 (by omega))
  have hback : (readTag src s).1.2 ≤ s.dp := by
    by_contra hlt
    rw [copyTag_of_lt (by rw [readTag_dp]; omega) (by omega)] at hc
    cases hc
  obtain ⟨hcod,hholds⟩ := readTag_coded hzero
  have hsize := length_encodeItem_le (.backref (readTag src s).1.2 (readTag src s).1.1)
  have hv : ValidFrom out.length [(.backref (readTag src s).1.2 (readTag src s).1.1 : Item UInt8)] :=
    ⟨Nat.pos_of_ne_zero hzero,by rw [← h.dp]; exact hback,trivial⟩
  obtain ⟨t',htakes,hp,hsp'⟩ := takesItem_coded hcod h hv hholds (by omega)
  obtain rfl : t' = t := by
    obtain ⟨u,hu,hcopy⟩ := htakes
    rw [hu] at hc
    exact Except.ok.inj (hcopy.symm.trans hc)
  exact ⟨by simpa using hcod,hv,hholds,hsp',hp,htakes.filled hcod hf⟩

theorem controlBits_step {ctrl n : ℕ} {i : Item UInt8} {g : List (Item UInt8)}
    (hbit : ctrl &&& 1 ≠ 0 ↔ i.isBackref = true) (hrest : (ctrl >>> 1)%2^n = controlBits g) :
    ctrl%2^(n+1) = controlBits (i::g) := by
  rw [Nat.and_one_is_mod] at hbit
  rw [Nat.shiftRight_eq_div_pow,pow_one] at hrest
  rw [pow_succ',Nat.mod_mul,hrest]
  cases i with
  | literal b =>
    simp only [Item.isBackref,Bool.false_eq_true,iff_false,not_not] at hbit
    rw [controlBits,hbit,Nat.zero_add]
  | backref off len =>
    simp only [Item.isBackref,iff_true] at hbit
    rw [controlBits]
    omega

/-- With `k` control bits to go the item loop took a group of items. It leaves control bits only at
the end of the input, or in front of a literal at the end of the output. -/
def TakesGroup (src : ℕ → UInt8) (srcend : ℕ) (destend : ℤ) (bound : ℕ) (base : ℕ → UInt8) (k ctrl : ℕ)
    (s t : Decoder) (out : List UInt8) : Prop :=
  ∃ g, Taken src bound base s t out g (g.flatMap encodeItem) ∧ g.length ≤ k ∧
    ctrl%2^g.length = controlBits g ∧
    (g.length = k ∨ srcend ≤ t.sp ∨ destend ≤ t.dp ∧ ctrl/2^g.length%2 = 0)

theorem TakesGroup.stay {k ctrl : ℕ} (hp : Produced bound base s out) (hf : Filled s)
    (h : srcend ≤ s.sp ∨ destend ≤ s.dp ∧ ctrl%2 = 0) :
    TakesGroup src srcend destend bound base k ctrl s s out :=
  ⟨[],.refl hp hf,Nat.zero_le _,Nat.mod_one _,.inr (by simpa using h)⟩

theorem TakesGroup.next {k ctrl : ℕ} {i : Item UInt8} (hbit : ctrl &&& 1 ≠ 0 ↔ i.isBackref = true)
    (htaken : Taken src bound base s t out [i] (encodeItem i))
    (h : TakesGroup src srcend destend bound base k (ctrl >>> 1) t u ([i].foldl Item.emit out)) :
    TakesGroup src srcend destend bound base (k+1) ctrl s u out := by
  obtain ⟨g,hg,hlen,hctrl,hend⟩ := h
  refine ⟨i::g,?_,Nat.succ_le_succ hlen,controlBits_step hbit hctrl,?_⟩
  · simpa using htaken.trans hg
  · rw [Nat.shiftRight_eq_div_pow,pow_one,Nat.div_div_eq_div_mul,← pow_succ'] at hend
    simpa using hend

theorem items_taken {k ctrl : ℕ} (hb : srcend+2 ≤ bound) (hp : Produced bound base s out) (hf : Filled s)
    (h : items src srcend destend k ctrl s = .ok t) (hle : (t.dp : ℤ) ≤ destend)
    (hw : LoadsWritten t.log) : TakesGroup src srcend destend bound base k ctrl s t out := by
  induction k generalizing ctrl s out with
  | zero =>
    cases h
    exact ⟨[],.refl hp hf,le_rfl,Nat.mod_one _,.inl rfl⟩
  | succ k ih =>
    simp only [items] at h
    split_ifs at h with hsp hbit hover hfull
    · cases h
      simp only [Decoder.skip,readTag_dp] at hle hover
      push_cast at hle
      omega
    · cases hc : copyTag (readTag src s).1.2 (readTag src s).1.1 (readTag src s).2 with
      | error e => simp [hc,Except.bind] at h
      | ok c =>
        simp only [hc,Except.bind] at h
        have hgrow := items_invariant (inductive_suffix src srcend destend c.log) k (ctrl >>> 1) c
          List.suffix_rfl
        rw [h,final_ok] at hgrow
        have htaken := taken_tag hp hf (by omega) hc (hw.suffix hgrow)
        exact .next (by simpa [Item.isBackref] using hbit) htaken (ih htaken.produced htaken.filled h)
    · obtain rfl : s = t := Except.ok.inj h
      rw [Nat.and_one_is_mod,not_not] at hbit
      exact .stay hp hf (.inr ⟨hfull,hbit⟩)
    · have htaken : Taken src bound base s _ out _ _ := taken_literal hp hf (by omega)
      exact .next (by simpa [Item.isBackref] using hbit) htaken (ih htaken.produced htaken.filled h)
    · obtain rfl : s = t := Except.ok.inj h
      exact .stay hp hf (.inl (Nat.le_of_not_lt hsp))

theorem inductive_dp (src : ℕ → UInt8) (srcend : ℕ) (destend : ℤ) (k : ℕ) :
    Inductive src srcend destend (fun s => k ≤ s.dp) where
  control s h _ _ := h
  literal s h _ _ := Nat.le_succ_of_le h
  tag s h _ := by rwa [readTag_dp]
  overrun s len h _ := Nat.le_add_right_of_le h
  copy s off h _ _ := Nat.le_succ_of_le h
  giveup s h _ := h

theorem decode_taken {fuel : ℕ} (hb : srcend+2 ≤ bound) (hp : Produced bound base s out) (hf : Filled s)
    (h : decode src srcend destend fuel s = .ok t) (hdp : (t.dp : ℤ) = destend)
    (hin : t.sp ≤ srcend) (hw : LoadsWritten t.log) :
    ∃ is l, Codes (t.sp = srcend) is l ∧ Taken src bound base s t out is l := by
  induction fuel generalizing s out with
  | zero =>
    cases h
    exact ⟨[],[],.nil,.refl hp hf⟩
  | succ fuel ih =>
    have hfst : (s.fetch src).1 = src s.sp := rfl
    rw [decode] at h
    split at h
    · rename_i hgo
      cases hi : items src srcend destend 8 (src s.sp).toNat (s.fetch src).2 with
      | error e => simp [hfst,hi,Except.bind] at h
      | ok c =>
        simp only [hfst,hi,Except.bind] at h
        have hgrow := decode_invariant (inductive_suffix src srcend destend c.log) fuel c List.suffix_rfl
        have hmono := decode_invariant (inductive_dp src srcend destend c.dp) fuel c le_rfl
        rw [h,final_ok] at hgrow hmono
        obtain ⟨g,hg,hlen,hctrl,hend⟩ := items_taken hb (hp.fetch src (by omega)) (hf.fetch src) hi
          (by omega) (hw.suffix hgrow)
        have hbyte := hg.control
        rcases Nat.lt_or_eq_of_le hlen with hlt | heq
        · have hend := hend.resolve_left (Nat.ne_of_lt hlt)
          rw [decode_stop fuel (hend.imp_right And.left)] at h
          obtain rfl : c = t := Except.ok.inj h
          have hne : g ≠ [] := by
            rintro rfl
            have hc := hg.produced.dp
            have hs := hp.dp
            simp only [List.foldl_nil] at hc
            omega
          exact ⟨g,_,.last hne hlt hctrl (hend.imp (Nat.le_antisymm hin) And.right),hbyte⟩
        · obtain ⟨is,l,hcodes,htaken⟩ := ih hg.produced hg.filled h
          have hfull : src s.sp::g.flatMap encodeItem = encodeGroup g := by
            rw [encodeGroup,← hctrl,heq,Nat.mod_eq_of_lt (src s.sp).toNat_lt,UInt8.ofNat_toNat]
          rw [hfull] at hbyte
          exact ⟨g ++ is,encodeGroup g ++ l,.group heq hcodes,hbyte.trans htaken⟩
    · cases h
      exact ⟨[],[],.nil,.refl hp hf⟩

theorem decode_group_taken (fuel : ℕ) {g : List (Item UInt8)} {c : UInt8} (hne : g ≠ []) (hlen : g.length ≤ 8)
    (hctrl : c.toNat%2^g.length = controlBits g) (hb : srcend+2 ≤ bound) (hp : Produced bound base s out)
    (hf : Filled s) (hc : ∀ i ∈ g, Codable i) (hv : ValidFrom out.length g)
    (hsrc : Holds src s.sp (c::g.flatMap encodeItem))
    (hin : s.sp+(c::g.flatMap encodeItem).length ≤ srcend)
    (hfit : (out.length+(g.map Item.size).sum : ℕ) ≤ destend) :
    ∃ d, decode src srcend destend (fuel+1) s =
        (items src srcend destend (8-g.length) (c.toNat/2^g.length) d).bind (decode src srcend destend fuel) ∧
      Taken src bound base s d out g (c::g.flatMap encodeItem) := by
  have hdp := hp.dp
  have hpos : 1 ≤ (g.map Item.size).sum := by
    obtain ⟨i,g,rfl⟩ := List.exists_cons_of_ne_nil hne
    exact Nat.le_add_right_of_le (hc i (by simp)).one_le_size
  rw [List.length_cons] at hin
  obtain ⟨pre,post,d,hg,hrun,htakes,hd,hsp,hreach⟩ := decode_group srcend destend fuel hlen hctrl
    (show s.sp < srcend by omega) (by omega) hc hp hv hsrc (by omega) hfit
  obtain rfl : post = [] := by
    by_contra hpost
    have hstop := hreach.stop hpost
    have hone : 1 ≤ (post.flatMap encodeItem).length := by
      obtain ⟨i,post,rfl⟩ := List.exists_cons_of_ne_nil hpost
      rw [List.flatMap_cons,List.length_append]
      exact Nat.le_add_right_of_le (one_le_length_encodeItem i)
    rw [hg,List.flatMap_append,List.length_append] at hin
    omega
  obtain rfl : g = pre := by rw [hg,List.append_nil]
  refine ⟨d,hrun,hc,hv,hsrc,?_,hd,htakes.filled hc (hf.fetch src)⟩
  rw [hsp,List.length_cons]
  omega

theorem decode_coded {atEnd : Prop} {fuel : ℕ} {is : List (Item UInt8)} {l : List UInt8}
    (hcodes : Codes atEnd is l) (hb : srcend+2 ≤ bound) (hp : Produced bound base s out) (hf : Filled s)
    (hc : ∀ i ∈ is, Codable i) (hv : ValidFrom out.length is) (hsrc : Holds src s.sp l)
    (hin : s.sp+l.length ≤ srcend) (hend : atEnd → s.sp+l.length = srcend)
    (hfit : (out.length+(is.map Item.size).sum : ℕ) = destend) (hfuel : srcend ≤ s.sp+fuel) :
    ∃ t, decode src srcend destend fuel s = .ok t ∧ Taken src bound base s t out is l := by
  induction hcodes generalizing s out fuel with
  | nil =>
    have hdp := hp.dp
    exact ⟨s,decode_stop fuel (.inr (by simpa [hdp] using hfit.ge)),.refl hp hf⟩
  | @last g c hne hlen hctrl hspare =>
    obtain ⟨fuel,rfl⟩ : ∃ n, fuel = n+1 := ⟨fuel-1,by simp at hin; omega⟩
    obtain ⟨d,hrun,htaken⟩ := decode_group_taken fuel hne (Nat.le_of_lt hlen) hctrl hb hp hf hc hv hsrc hin hfit.le
    have hfull : destend ≤ d.dp := by
      rw [htaken.produced.dp,length_foldl_emit]
      exact hfit.ge
    refine ⟨d,?_,htaken⟩
    rw [hrun,items_stop (hspare.imp (fun h => ?_) fun h => ⟨hfull,h⟩)]
    · exact decode_stop fuel (.inr hfull)
    · rw [htaken.sp]
      exact (hend h).ge
  | @group g is l hlen hcodes ih =>
    have hne : g ≠ [] := List.ne_nil_of_length_pos (by omega)
    obtain ⟨hcg,hcis⟩ := List.forall_mem_append.mp hc
    obtain ⟨hvg,hvis⟩ := (validFrom_append _ _ _).mp hv
    obtain ⟨hg,hl⟩ := holds_append.mp hsrc
    rw [List.length_append] at hin hend
    rw [List.map_append,List.sum_append] at hfit
    have hctrl : (UInt8.ofNat (controlBits g)).toNat%2^g.length = controlBits g := by
      rw [toNat_controlBits (Nat.le_of_eq hlen),Nat.mod_eq_of_lt (controlBits_lt g)]
    have hpos : 1 ≤ (encodeGroup g).length := by simp [encodeGroup]
    obtain ⟨fuel,rfl⟩ : ∃ n, fuel = n+1 := ⟨fuel-1,by omega⟩
    obtain ⟨d,hrun,htaken⟩ := decode_group_taken fuel hne (Nat.le_of_eq hlen) hctrl hb hp hf hcg hvg hg
      (show s.sp+(encodeGroup g).length ≤ srcend by omega)
      (show ((out.length+(g.map Item.size).sum : ℕ) : ℤ) ≤ destend by omega)
    have hsp : d.sp = s.sp+(encodeGroup g).length := htaken.sp
    have hout : (g.foldl Item.emit out).length = out.length+(g.map Item.size).sum := length_foldl_emit g out
    have hrest : ((g.foldl Item.emit out).length+(is.map Item.size).sum : ℕ) = destend := by omega
    obtain ⟨t,ht,htaken'⟩ := ih htaken.produced htaken.filled hcis (by rw [hout]; exact hvis)
      (by rw [hsp]; exact hl) (by omega) (fun h => by have := hend h; omega) hrest
      (show srcend ≤ d.sp+fuel by omega)
    refine ⟨t,?_,htaken.trans htaken'⟩
    rw [hrun,hlen,← ht]
    rfl

end Taking

/-! ### One coding, one stream -/

theorem eq_of_isPrefix {g g' : List (Item UInt8)} (h : g <+: g') (hc : ∀ i ∈ g', Codable i)
    (hsum : (g.map Item.size).sum = (g'.map Item.size).sum) : g = g' := by
  obtain ⟨r,rfl⟩ := h
  by_contra hne
  have hr : r ≠ [] := fun hnil => hne (by rw [hnil,List.append_nil])
  have hlt := (@lt_length_expand g r fun i hi => hc i (List.mem_append_right g hi)).mpr hr
  rw [length_expand,length_expand] at hlt
  omega

section Uniqueness

variable {src : ℕ → UInt8} {a : ℕ}

theorem encodeItem_unique {i j : Item UInt8} (hi : Codable i) (hj : Codable j)
    (hkind : i.isBackref = j.isBackref) (hsi : Holds src a (encodeItem i)) (hsj : Holds src a (encodeItem j)) :
    i = j := by
  cases i with
  | literal b =>
    cases j with
    | literal b' => rw [← (holds_cons.mp hsi).1,← (holds_cons.mp hsj).1]
    | backref off len => cases hkind
  | backref off len =>
    cases j with
    | literal b => cases hkind
    | backref off' len' =>
      have hp : Produced (a+3) (fun _ => 0) ⟨a,0,fun _ => 0,[]⟩ [] := ⟨rfl,holds_nil _ _,fun _ _ => rfl,by simp⟩
      have hli := length_encodeItem_le (.backref off len)
      have hlj := length_encodeItem_le (.backref off' len')
      obtain ⟨t,ht,-⟩ := readTag_encoded hi hp hsi (Nat.add_le_add_left hli a)
      obtain ⟨t',ht',-⟩ := readTag_encoded hj hp hsj (Nat.add_le_add_left hlj a)
      rw [ht] at ht'
      simp only [Prod.mk.injEq] at ht'
      rw [ht'.1.1,ht'.1.2]

theorem group_unique {ctrl : ℕ} {g g' : List (Item UInt8)} (hc : ∀ i ∈ g, Codable i)
    (hc' : ∀ i ∈ g', Codable i) (hctrl : ctrl%2^g.length = controlBits g)
    (hctrl' : ctrl%2^g'.length = controlBits g') (hs : Holds src a (g.flatMap encodeItem))
    (hs' : Holds src a (g'.flatMap encodeItem)) : g <+: g' ∨ g' <+: g := by
  induction g generalizing a ctrl g' with
  | nil => exact .inl List.nil_prefix
  | cons i g ih =>
    cases g' with
    | nil => exact .inr List.nil_prefix
    | cons j g' =>
      obtain ⟨hi,hg⟩ := List.forall_mem_cons.mp hc
      obtain ⟨hj,hg'⟩ := List.forall_mem_cons.mp hc'
      obtain ⟨hbit,hrest⟩ := controlBits_cons hctrl
      obtain ⟨hbit',hrest'⟩ := controlBits_cons hctrl'
      rw [List.flatMap_cons,holds_append] at hs hs'
      obtain rfl : i = j := encodeItem_unique hi hj (Bool.eq_iff_iff.mpr (hbit.symm.trans hbit')) hs.1 hs'.1
      rw [List.prefix_cons_inj,List.prefix_cons_inj]
      exact ih hg hg' hrest hrest' hs.2 hs'.2

theorem Codes.first {atEnd : Prop} {is : List (Item UInt8)} {l : List UInt8} (h : Codes atEnd is l)
    (hne : is ≠ []) (hl : Holds src a l) :
    ∃ g r, is = g ++ r ∧ (src a).toNat%2^g.length = controlBits g ∧ Holds src (a+1) (g.flatMap encodeItem) ∧
      (g.length < 8 ∧ r = [] ∨ g.length = 8 ∧
        ∃ k, Codes atEnd r k ∧ Holds src (a+1+(g.flatMap encodeItem).length) k) := by
  cases h with
  | nil => exact absurd rfl hne
  | last _ hlen hc =>
    obtain ⟨rfl,hitems⟩ := holds_cons.mp hl
    exact ⟨is,[],by simp,hc,hitems,.inl ⟨hlen,rfl⟩⟩
  | @group g r k hlen h =>
    obtain ⟨hg,hk⟩ := holds_append.mp hl
    obtain ⟨hbyte,hitems⟩ := holds_cons.mp hg
    rw [encodeGroup,List.length_cons,Nat.add_comm _ 1,← Nat.add_assoc] at hk
    refine ⟨g,r,rfl,?_,hitems,.inr ⟨hlen,k,h,hk⟩⟩
    rw [hbyte,toNat_controlBits (Nat.le_of_eq hlen),Nat.mod_eq_of_lt (controlBits_lt g)]

/-- Bytes code one sequence of a given size at most. -/
theorem Codes.unique {atEnd atEnd' : Prop} {is js : List (Item UInt8)} {l k : List UInt8}
    (h : Codes atEnd is l) (h' : Codes atEnd' js k) (hc : ∀ i ∈ is, Codable i) (hc' : ∀ i ∈ js, Codable i)
    (hl : Holds src a l) (hk : Holds src a k) (hsum : (is.map Item.size).sum = (js.map Item.size).sum) :
    is = js := by
  induction hn : is.length using Nat.strong_induction_on generalizing is js l k a with
  | _ n ih =>
    rcases eq_or_ne is [] with rfl | hne
    · exact eq_of_isPrefix List.nil_prefix hc' hsum
    rcases eq_or_ne js [] with rfl | hne'
    · exact (eq_of_isPrefix List.nil_prefix hc hsum.symm).symm
    obtain ⟨g,r,rfl,hctrl,hg,hlast⟩ := h.first hne hl
    obtain ⟨g',r',rfl,hctrl',hg',hlast'⟩ := h'.first hne' hk
    obtain ⟨hcg,hcr⟩ := List.forall_mem_append.mp hc
    obtain ⟨hcg',hcr'⟩ := List.forall_mem_append.mp hc'
    have hpre := group_unique hcg hcg' hctrl hctrl' hg hg'
    rcases hlast with ⟨hlen,rfl⟩ | ⟨hlen,q,hcodes,hq⟩
    · rw [List.append_nil] at hc hsum ⊢
      rcases hpre with hpre | hpre
      · exact eq_of_isPrefix (hpre.trans (List.prefix_append g' r')) hc' hsum
      · rcases hlast' with ⟨-,rfl⟩ | ⟨hlen',-⟩
        · rw [List.append_nil] at hsum ⊢
          exact (eq_of_isPrefix hpre hc hsum.symm).symm
        · have := hpre.length_le
          omega
    · rcases hlast' with ⟨hlen',rfl⟩ | ⟨hlen',q',hcodes',hq'⟩
      · rw [List.append_nil] at hc' hsum ⊢
        rcases hpre with hpre | hpre
        · have := hpre.length_le
          omega
        · exact (eq_of_isPrefix (hpre.trans (List.prefix_append g r)) hc hsum.symm).symm
      · obtain rfl : g = g' := hpre.elim (fun hp => hp.eq_of_length (by omega))
          fun hp => (hp.eq_of_length (by omega)).symm
        rw [List.map_append,List.map_append,List.sum_append,List.sum_append] at hsum
        rw [List.length_append] at hn
        rw [ih r.length (by omega) hcodes hcodes' hcr hcr' hq hq' (by omega) rfl]

end Uniqueness

/-- The input starts with the coding of a stream that has its raw size. The bytes behind the coding
are free. -/
structure CodesStream (source : ℕ → UInt8) (e : PglzStream) : Prop where
  rawsize : int32 (le32 source 4) = e.expansion.length
  inside : 8+e.bytes.length ≤ varsize (le32 source 0)
  codes : Codes (8+e.bytes.length = varsize (le32 source 0)) e.items (window source 8 e.bytes.length)

theorem produced_start (source dest : ℕ → UInt8) :
    Produced (varsize (le32 source 0)+8) dest (.start dest) [] := by
  refine ⟨rfl,holds_nil _ _,fun _ _ => rfl,fun i hi => ?_⟩
  simp only [Decoder.start,List.mem_map,List.mem_range,Access.source.injEq,exists_eq_right] at hi
  omega

theorem CodesStream.unique {source : ℕ → UInt8} {e e' : PglzStream} (h : CodesStream source e)
    (h' : CodesStream source e') : e = e' := by
  have hsum : (e.items.map Item.size).sum = (e'.items.map Item.size).sum := by
    have hraw := h.rawsize.symm.trans h'.rawsize
    rw [PglzStream.expansion,PglzStream.expansion,length_expand,length_expand] at hraw
    omega
  have hitems := h.codes.unique h'.codes e.codable e'.codable (holds_window source 8 _)
    (holds_window source 8 _) hsum
  cases e
  cases e'
  simpa using hitems

theorem CodesStream.run {source : ℕ → UInt8} {e : PglzStream} (h : CodesStream source e) (dest : ℕ → UInt8) :
    ∃ t, pglzDecompress source dest = ⟨.returned,t⟩ ∧ t.dp = e.expansion.length ∧
      t.sp = 8+e.bytes.length ∧ Holds t.dest 0 e.expansion ∧
      (∀ i, e.expansion.length ≤ i → t.dest i = dest i) ∧ LoadsWritten t.log := by
  have hlen := h.codes.length
  obtain ⟨t,hrun,htaken⟩ : ∃ t, decode source (varsize (le32 source 0)) (int32 (le32 source 4))
      (varsize (le32 source 0)) (.start dest) = .ok t ∧
        Taken source (varsize (le32 source 0)+8) dest (.start dest) t [] e.items
          (window source 8 e.bytes.length) :=
    decode_coded h.codes (by omega) (produced_start source dest) (.start dest) e.codable e.valid
      (holds_window source 8 _) (by rw [length_window]; exact h.inside) (by rw [length_window]; exact id)
      (by rw [h.rawsize,PglzStream.expansion,length_expand]; simp) (Nat.le_add_left _ _)
  have hdp : t.dp = e.expansion.length := htaken.produced.dp
  refine ⟨t,?_,hdp,?_,htaken.produced.dest,htaken.produced.rest,htaken.filled.loads⟩
  · rw [pglzDecompress_of_ok hrun,if_neg (by rw [h.rawsize,hdp]; omega)]
  · rw [htaken.sp,length_window]
    rfl

/-- Whatever the source is, a run returns with all of its output, inside the input and without
loading an output byte before it stores it, if and only if the input starts with the coding of one
stream, and of no other; and then its text is what the run has written. -/
theorem pglzDecompress_accepts_iff (source dest : ℕ → UInt8) :
    ((pglzDecompress source dest).exit = .returned ∧
        ((pglzDecompress source dest).state.dp : ℤ) = int32 (le32 source 4) ∧
        (pglzDecompress source dest).state.sp ≤ varsize (le32 source 0) ∧
        LoadsWritten (pglzDecompress source dest).state.log ↔ ∃! e, CodesStream source e) ∧
      ∀ e, CodesStream source e → Holds (pglzDecompress source dest).state.dest 0 e.expansion := by
  refine ⟨⟨?_,?_⟩,fun e he => ?_⟩
  · rintro ⟨hreturned,hdp,hin,hloads⟩
    cases h : decode source (varsize (le32 source 0)) (int32 (le32 source 4)) (varsize (le32 source 0))
        (.start dest) with
    | error f =>
      rw [pglzDecompress_of_error h] at hreturned
      cases hreturned
    | ok f =>
      rw [pglzDecompress_of_ok h] at hdp hin hloads
      obtain ⟨is,l,hcodes,htaken⟩ := decode_taken (by omega) (produced_start source dest) (.start dest) h hdp hin
        hloads
      have hsp : f.sp = 8+(encode is).length := by
        rw [htaken.sp,hcodes.length]
        rfl
      have hbytes : window source 8 (encode is).length = l := by
        rw [← hcodes.length]
        exact htaken.bytes
      refine existsUnique_of_exists_of_unique ⟨⟨is,htaken.codable,htaken.valid⟩,?_,hsp ▸ hin,?_⟩
        fun _ _ => CodesStream.unique
      · rw [← hdp,htaken.produced.dp]
        rfl
      · rw [PglzStream.bytes,hbytes,← hsp]
        exact hcodes
  · rintro ⟨e,he,-⟩
    obtain ⟨t,hrun,hdp,hsp,-,-,hloads⟩ := he.run dest
    rw [hrun]
    exact ⟨rfl,by rw [hdp,he.rawsize],hsp ▸ he.inside,hloads⟩
  · obtain ⟨t,hrun,-,-,hdest,-⟩ := he.run dest
    rw [hrun]
    exact hdest

/-- The stream of one literal and a copy of it, in a datum whose spare control bits are set. -/
def spareDatum : ℕ → UInt8 := fun i => ([48,0,0,0,4,0,0,0,0xfe,0x61,0,1] : List UInt8).getD i 0xff

theorem pglzDecompress_accepts_spare :
    LoadsWritten (pglzDecompress spareDatum fun _ => 0).state.log ∧
      Holds (pglzDecompress spareDatum fun _ => 0).state.dest 0 [0x61,0x61,0x61,0x61] := by
  have hlen : runStream.bytes.length = 4 := by rw [runStream_bytes]; rfl
  have hlast : Codes (8+4 = varsize (le32 spareDatum 0)) runStream.items
      (0xfe::runStream.items.flatMap encodeItem) :=
    .last (by decide) (by decide) (by decide) (.inl (by decide))
  have hcodes : CodesStream spareDatum runStream :=
    ⟨by decide,by rw [hlen]; decide,by rw [hlen]; exact hlast⟩
  obtain ⟨hiff,htext⟩ := pglzDecompress_accepts_iff spareDatum fun _ => 0
  exact ⟨(hiff.mpr ⟨_,hcodes,fun _ h => h.unique hcodes⟩).2.2.2,htext _ hcodes⟩

end PageDumper
