import PageDumper.PglzBounds
import PageDumper.PglzFormat

/-! The round trip: the modified decoder expands every stream of the format, also when the
header promises more compressed bytes than there are. For a header that promises fewer, the
items it reaches are expanded and the rest of the text is missing. -/
namespace PageDumper
open Memory Words Grouping LZ77

/-- The decoder after it has written `out` into an output area that held `base`, having read
below `bound` only. -/
structure Produced (bound : ℕ) (base : ℕ → UInt8) (s : Decoder) (out : List UInt8) : Prop where
  dp : s.dp = out.length
  dest : Holds s.dest 0 out
  rest : ∀ i, out.length ≤ i → s.dest i = base i
  source : ∀ i : ℕ, .source i ∈ s.log → i < bound

section Steps

variable {bound : ℕ} {base : ℕ → UInt8} {s : Decoder} {out : List UInt8}

theorem Produced.window (h : Produced bound base s out) : window s.dest 0 s.dp = out := by
  rw [h.dp]
  exact h.dest

theorem Produced.reads {s' : Decoder} (h : Produced bound base s out) (hdp : s'.dp = s.dp)
    (hd : s'.dest = s.dest) (hl : ∀ i : ℕ, .source i ∈ s'.log → i < bound) :
    Produced bound base s' out :=
  ⟨by rw [hdp,h.dp],by rw [hd]; exact h.dest,by rw [hd]; exact h.rest,hl⟩

theorem Produced.fetch (h : Produced bound base s out) (src : ℕ → UInt8) (hsp : s.sp < bound) :
    Produced bound base (s.fetch src).2 out := by
  refine h.reads rfl rfl fun i hi => ?_
  simp only [Decoder.fetch,List.mem_cons,Access.source.injEq] at hi
  rcases hi with rfl | hi
  · exact hsp
  · exact h.source i hi

theorem Produced.rest_update (h : Produced bound base s out) (b : UInt8) {i : ℕ}
    (hi : out.length+1 ≤ i) : Function.update s.dest s.dp b i = base i := by
  rw [Function.update_of_ne (by rw [h.dp]; omega)]
  exact h.rest i (by omega)

theorem Produced.literal (h : Produced bound base s out) (src : ℕ → UInt8) (hsp : s.sp < bound) :
    Produced bound base (s.literal src) (out ++ [src s.sp]) := by
  refine ⟨by simp [Decoder.literal,h.dp],?_,fun i hi => ?_,fun i hi => ?_⟩
  · have hw : Holds (Function.update s.dest s.dp (src s.sp)) 0 out :=
      h.dest.congr fun i hi => by
        rw [Function.update_of_ne]
        rw [h.dp]
        omega
    refine holds_append.mpr ⟨hw,holds_cons.mpr ⟨?_,holds_nil _ _⟩⟩
    simp [Decoder.literal,h.dp]
  · exact h.rest_update _ (by simpa using hi)
  · simp only [Decoder.literal,List.mem_cons,Access.source.injEq,reduceCtorEq,false_or] at hi
    rcases hi with rfl | hi
    · exact hsp
    · exact h.source i hi

theorem Produced.copyByte (h : Produced bound base s out) {off : ℕ} (h₁ : 1 ≤ off)
    (h₂ : off ≤ s.dp) :
    Produced bound base (s.copyByte off) (out ++ [out.getD (out.length-off) default]) := by
  have hcell := window_copy_cell s.dest h₁ h₂
  rw [h.window] at hcell
  refine ⟨by simp [Decoder.copyByte,h.dp],?_,fun i hi => ?_,fun i hi => h.source i ?_⟩
  · rw [Holds,List.length_append,List.length_singleton,show out.length+1 = s.dp+1 by rw [h.dp]]
    exact hcell
  · exact h.rest_update _ (by simpa using hi)
  · simpa [Decoder.copyByte] using hi

theorem copyTag_produced {off : ℕ} (h₁ : 1 ≤ off) (len : ℕ) (h : Produced bound base s out)
    (h₂ : off ≤ out.length) :
    ∃ s', copyTag off len s = .ok s' ∧ s'.sp = s.sp ∧ Produced bound base s' (copyRun off len out) := by
  induction len generalizing s out with
  | zero => exact ⟨s,rfl,rfl,h⟩
  | succ len ih =>
    have hoff : off ≤ s.dp := by rw [h.dp]; exact h₂
    obtain ⟨s',hs',hsp,hp⟩ := ih (h.copyByte h₁ hoff) (by simp; omega)
    exact ⟨s',by simp [copyTag,hoff,hs'],hsp,hp⟩

theorem readTag_encoded {off len : ℕ} (hc : Codable (.backref off len)) {src : ℕ → UInt8}
    (h : Produced bound base s out)
    (hsrc : Holds src s.sp (encodeItem (.backref off len)))
    (hb : s.sp+(encodeItem (.backref off len)).length ≤ bound) :
    ∃ s', readTag src s = ((len,off),s') ∧
      s'.sp = s.sp+(encodeItem (.backref off len)).length ∧ Produced bound base s' out := by
  obtain ⟨⟨h₁,h₂⟩,h₃,h₄⟩ := hc
  have hoff : 256*(off/256)+off%256 = off := Nat.div_add_mod off 256
  have hmod : off%256 < 256 := Nat.mod_lt _ (by omega)
  have hdiv : off/256 < 16 := by omega
  rcases Nat.lt_or_ge 17 len with hl | hl
  · simp only [encodeItem,if_neg (Nat.not_le.mpr hl),holds_cons] at hsrc hb ⊢
    obtain ⟨ht₁,ht₂,ht₃,-⟩ := hsrc
    have hn₁ : (src s.sp).toNat = 16*(off/256)+15 := by
      rw [ht₁,UInt8.toNat_ofNat']
      omega
    have hn₂ : (src (s.sp+1)).toNat = off%256 := by
      rw [ht₂,UInt8.toNat_ofNat']
      omega
    have hn₃ : (src (s.sp+2)).toNat = len-18 := by
      rw [ht₃,UInt8.toNat_ofNat']
      omega
    have hlen : ((16*(off/256)+15) &&& 0x0f)+3 = 18 := by
      rw [and_0f]
      omega
    refine ⟨(readTag src s).2,?_,?_,h.reads (by simp) (by simp) fun i hi => ?_⟩
    · simp only [readTag,hn₁,hn₂,hlen,if_true,Decoder.fetch,tag_offset hdiv (show 15 < 16 by omega) hmod,
        hoff,hn₃]
      rw [show 18+(len-18) = len by omega]
    · simp [readTag,hn₁,hlen,Decoder.fetch]
    · simp only [List.length_cons,List.length_nil] at hb
      simp only [readTag,hn₁,hlen,if_true,Decoder.fetch,List.mem_cons,Access.source.injEq] at hi
      rcases hi with rfl | rfl | rfl | hi
      · omega
      · omega
      · omega
      · exact h.source i hi
  · simp only [encodeItem,if_pos hl,holds_cons] at hsrc hb ⊢
    obtain ⟨ht₁,ht₂,-⟩ := hsrc
    have hn₁ : (src s.sp).toNat = 16*(off/256)+(len-3) := by
      rw [ht₁,UInt8.toNat_ofNat']
      omega
    have hn₂ : (src (s.sp+1)).toNat = off%256 := by
      rw [ht₂,UInt8.toNat_ofNat']
      omega
    have hlen : ((16*(off/256)+(len-3)) &&& 0x0f)+3 = len := by
      rw [and_0f]
      omega
    have hne : ¬ len = 18 := by omega
    refine ⟨(readTag src s).2,?_,?_,h.reads (by simp) (by simp) fun i hi => ?_⟩
    · simp only [readTag,hn₁,hn₂,hlen,if_neg hne,tag_offset hdiv (show len-3 < 16 by omega) hmod,hoff]
    · simp [readTag,hn₁,hlen,hne]
    · simp only [List.length_cons,List.length_nil] at hb
      simp only [readTag,hn₁,hlen,if_neg hne,List.mem_cons,Access.source.injEq] at hi
      rcases hi with rfl | rfl | hi
      · omega
      · omega
      · exact h.source i hi

/-- An iteration of the item loop takes an item: it stores the literal, or it reads the tag and
follows it. -/
def TakesItem (src : ℕ → UInt8) : Item UInt8 → Decoder → Decoder → Prop
  | .literal _, s, t => t = s.literal src
  | .backref off len, s, t => ∃ u, readTag src s = ((len,off),u) ∧ copyTag off len u = .ok t

def Takes (src : ℕ → UInt8) : List (Item UInt8) → Decoder → Decoder → Prop
  | [], s, t => t = s
  | i::g, s, t => ∃ u, TakesItem src i s u ∧ Takes src g u t

theorem takesItem_coded {i : Item UInt8} (hc : Codable i) {src : ℕ → UInt8}
    (h : Produced bound base s out) (hv : ValidFrom out.length [i])
    (hsrc : Holds src s.sp (encodeItem i)) (hb : s.sp+(encodeItem i).length ≤ bound) :
    ∃ t, TakesItem src i s t ∧ Produced bound base t (i.emit out) ∧
      t.sp = s.sp+(encodeItem i).length := by
  cases i with
  | literal b =>
    simp only [encodeItem,holds_cons,List.length_singleton] at hsrc hb
    have hl := h.literal src (show s.sp < bound by omega)
    rw [hsrc.1] at hl
    exact ⟨s.literal src,rfl,hl,rfl⟩
  | backref off len =>
    obtain ⟨hv₁,hv₂,-⟩ := hv
    obtain ⟨u,hu,husp,hup⟩ := readTag_encoded hc h hsrc hb
    obtain ⟨t,hcopy,hsp,hp⟩ := copyTag_produced hv₁ len hup hv₂
    exact ⟨t,⟨u,hu,hcopy⟩,hp,by rw [hsp,husp]⟩

end Steps

/-- The decoder took the items `pre`, the last of which starts before the end of the input,
and left `post` only because it was at that end. -/
structure Reached (srcend : ℕ) (start : List (Item UInt8) → ℕ) (pre post : List (Item UInt8))
    (sp : ℕ) : Prop where
  last : pre ≠ [] → start pre.dropLast < srcend
  stop : post ≠ [] → srcend ≤ sp

theorem controlBits_cons {ctrl : ℕ} {i : Item UInt8} {g : List (Item UInt8)}
    (h : ctrl%2^(g.length+1) = controlBits (i::g)) :
    (ctrl &&& 1 ≠ 0 ↔ i.isBackref = true) ∧ (ctrl >>> 1)%2^g.length = controlBits g := by
  rw [Nat.and_one_is_mod,Nat.shiftRight_eq_div_pow,pow_one]
  rw [pow_succ',Nat.mod_mul] at h
  cases i <;> simp only [controlBits,Item.isBackref] at h ⊢ <;> grind

section Items

variable {src base : ℕ → UInt8} {srcend bound : ℕ} {destend : ℤ} {s t : Decoder} {out : List UInt8}

theorem items_takes {k ctrl : ℕ} {i : Item UInt8} (h : TakesItem src i s t) (hsp : s.sp < srcend)
    (hfit : (s.dp+i.size : ℕ) ≤ destend) (hpos : 1 ≤ i.size) (hbit : ctrl &&& 1 ≠ 0 ↔ i.isBackref = true) :
    items src srcend destend (k+1) ctrl s = items src srcend destend k (ctrl >>> 1) t := by
  cases i with
  | literal b =>
    obtain rfl : t = s.literal src := h
    simp only [Item.isBackref,Bool.false_eq_true,iff_false] at hbit
    simp only [items,if_pos hsp,if_neg hbit,if_neg (show ¬destend ≤ s.dp by omega)]
  | backref off len =>
    obtain ⟨u,hu,hcopy⟩ := h
    simp only [Item.isBackref,iff_true] at hbit
    simp only [Item.size] at hfit
    have hdp : u.dp = s.dp := by
      have := readTag_dp src s
      rwa [hu] at this
    have hover : ¬destend < u.dp+len := by
      rw [hdp]
      omega
    simp only [items,if_pos hsp,if_pos hbit,hu,if_neg hover,hcopy,Except.bind]

theorem items_stop {k ctrl : ℕ} (h : srcend ≤ s.sp ∨ destend ≤ s.dp ∧ ctrl%2 = 0) :
    items src srcend destend k ctrl s = .ok s := by
  cases k with
  | zero => rfl
  | succ k =>
    rw [items]
    split
    · obtain ⟨hfull,hbit⟩ := h.resolve_left (by omega)
      rw [if_neg (by rw [Nat.and_one_is_mod]; omega),if_pos hfull]
    · rfl

variable (srcend destend)

/-- The item loop takes the items of a coded group that start before the end of the input, and goes
on with the control bits behind them. -/
theorem items_group {k ctrl : ℕ} {g : List (Item UInt8)} (hc : ∀ i ∈ g, Codable i)
    (h : Produced bound base s out) (hv : ValidFrom out.length g) (hsrc : Holds src s.sp (g.flatMap encodeItem))
    (hb : s.sp+(g.flatMap encodeItem).length ≤ bound)
    (hfit : (out.length+(g.map Item.size).sum : ℕ) ≤ destend) (hctrl : ctrl%2^g.length = controlBits g) :
    ∃ pre post t, g = pre ++ post ∧
      items src srcend destend (k+g.length) ctrl s =
        items src srcend destend (k+post.length) (ctrl/2^pre.length) t ∧
      Takes src pre s t ∧ Produced bound base t (pre.foldl Item.emit out) ∧
      t.sp = s.sp+(pre.flatMap encodeItem).length ∧
      Reached srcend (fun is => s.sp+(is.flatMap encodeItem).length) pre post t.sp := by
  induction g generalizing ctrl s out with
  | nil =>
    exact ⟨[],[],s,rfl,by simp,rfl,h,rfl,⟨fun hne => absurd rfl hne,fun hne => absurd rfl hne⟩⟩
  | cons i g ih =>
    by_cases hsp : s.sp < srcend
    · obtain ⟨hci,hcg⟩ := List.forall_mem_cons.mp hc
      rw [show i::g = [i] ++ g from rfl,validFrom_append] at hv
      rw [List.flatMap_cons,holds_append] at hsrc
      simp only [List.flatMap_cons,List.length_append,List.map_cons,List.sum_cons] at hb hfit
      have hdp := h.dp
      have hlen := length_emit out i
      obtain ⟨hbit,hrest⟩ := controlBits_cons hctrl
      obtain ⟨u,htakes,hup,husp⟩ := takesItem_coded hci h hv.1 hsrc.1 (by omega)
      have hstep : items src srcend destend (k+g.length+1) ctrl s = _ :=
        items_takes htakes hsp (by omega) hci.one_le_size hbit
      obtain ⟨pre,post,t,rfl,hrun,ht,hp,htsp,hreach⟩ := ih hcg hup (by rw [hlen]; simpa using hv.2)
        (by rw [husp]; exact hsrc.2) (by omega) (by omega) hrest
      refine ⟨i::pre,post,t,rfl,?_,⟨u,htakes,ht⟩,hp,?_,fun _ => ?_,hreach.stop⟩
      · rw [List.length_cons,← Nat.add_assoc,hstep,hrun,Nat.shiftRight_eq_div_pow,pow_one,
          Nat.div_div_eq_div_mul,← pow_succ',List.length_cons]
      · rw [htsp,husp,List.flatMap_cons,List.length_append]
        omega
      · cases pre with
        | nil => exact hsp
        | cons j pre =>
          have hlast := hreach.last (by simp)
          rw [List.dropLast_cons_of_ne_nil (by simp),List.flatMap_cons,List.length_append]
          omega
    · exact ⟨[],i::g,s,rfl,by simp,rfl,h,rfl,⟨fun hne => absurd rfl hne,fun _ => by omega⟩⟩

theorem decode_group (fuel : ℕ) {g : List (Item UInt8)} {c : UInt8} (hlen : g.length ≤ 8)
    (hctrl : c.toNat%2^g.length = controlBits g) (hsp : s.sp < srcend) (hdp : (s.dp : ℤ) < destend)
    (hc : ∀ i ∈ g, Codable i) (h : Produced bound base s out) (hv : ValidFrom out.length g)
    (hsrc : Holds src s.sp (c::g.flatMap encodeItem)) (hb : s.sp+1+(g.flatMap encodeItem).length ≤ bound)
    (hfit : (out.length+(g.map Item.size).sum : ℕ) ≤ destend) :
    ∃ pre post t, g = pre ++ post ∧
      decode src srcend destend (fuel+1) s =
        (items src srcend destend (8-g.length+post.length) (c.toNat/2^pre.length) t).bind
          (decode src srcend destend fuel) ∧
      Takes src pre (s.fetch src).2 t ∧ Produced bound base t (pre.foldl Item.emit out) ∧
      t.sp = s.sp+1+(pre.flatMap encodeItem).length ∧
      Reached srcend (fun is => s.sp+1+(is.flatMap encodeItem).length) pre post t.sp := by
  obtain ⟨hbyte,hitems⟩ := holds_cons.mp hsrc
  obtain ⟨pre,post,t,hg,hrun,htaken⟩ := items_group srcend destend (k := 8-g.length) hc
    (h.fetch src (show s.sp < bound by omega)) hv hitems hb hfit hctrl
  rw [Nat.sub_add_cancel hlen] at hrun
  have hfst : (s.fetch src).1 = c := hbyte
  exact ⟨pre,post,t,hg,by simp only [decode,if_pos (And.intro hsp hdp),hfst,hrun],htaken⟩

end Items

section Decoding

variable {src base : ℕ → UInt8} (srcend : ℕ) {bound destend : ℕ}

/-- The outer loop decodes a stream group by group, up to the end of the input, or up to the
end of the output if that comes first. -/
theorem decode_encoded (is : List (Item UInt8)) (fuel : ℕ)
    (hc : ∀ i ∈ is, Codable i) {s : Decoder} {out : List UInt8}
    (h : Produced bound base s out) (hv : ValidFrom out.length is)
    (hsrc : Holds src s.sp (encode is)) (hb : s.sp+(encode is).length = bound)
    (hend : out.length+(is.map Item.size).sum = destend) (hf : srcend ≤ s.sp+fuel) :
    ∃ pre post s', is = pre ++ post ∧ decode src srcend destend fuel s = .ok s' ∧
      Produced bound base s' (pre.foldl Item.emit out) ∧
      (s'.sp = s.sp+(encode pre).length ∨
        s'.sp = s.sp+itemStart pre ∧ s.sp+(encode pre).length < srcend ∧ post ≠ []) ∧
      Reached srcend (fun is => s.sp+itemStart is) pre post s'.sp := by
  induction is using groupsOf_induction 8 generalizing fuel s out with
  | nil =>
    have hdp := h.dp
    simp only [List.map_nil,List.sum_nil] at hend
    exact ⟨[],[],s,rfl,decode_stop fuel (.inr (by omega)),h,.inl (by simp [encode]),
      ⟨fun hne => absurd rfl hne,fun hne => absurd rfl hne⟩⟩
  | group i is ih =>
    by_cases hsp : s.sp < srcend
    · simp only [Nat.reduceSub] at ih
      have hsplit : i::is = (i::is.take 7) ++ is.drop 7 := by simp
      have hlen : (i::is.take 7).length ≤ 8 := by
        rw [List.length_cons,List.length_take]
        omega
      have hcg : ∀ j ∈ i::is.take 7, Codable j := fun j hj =>
        hc j (by rw [hsplit]; exact List.mem_append_left _ hj)
      have hcr : ∀ j ∈ is.drop 7, Codable j := fun j hj =>
        hc j (by rw [hsplit]; exact List.mem_append_right _ hj)
      rw [encode_cons] at hsrc hb
      rw [hsplit,validFrom_append] at hv
      rw [hsplit,List.map_append,List.sum_append] at hend
      rw [holds_append] at hsrc
      obtain ⟨hg,hr⟩ := hsrc
      simp only [encodeGroup,List.length_cons,List.length_append] at hb hr
      have hsize := (hc i (by simp)).one_le_size
      have hpos : i.size ≤ ((i::is.take 7).map Item.size).sum := by simp
      have hdp := h.dp
      obtain ⟨fuel,rfl⟩ : ∃ k, fuel = k+1 := ⟨fuel-1,by omega⟩
      have hbits : (UInt8.ofNat (controlBits (i::is.take 7))).toNat%2^(i::is.take 7).length =
          controlBits (i::is.take 7) := by
        rw [toNat_controlBits hlen,Nat.mod_eq_of_lt (controlBits_lt _)]
      obtain ⟨gpre,gpost,t,hgrp,hrun,-,htp,htsp,hreach⟩ := decode_group srcend destend fuel hlen
        hbits hsp (by omega) hcg h hv.1 hg (by omega) (by omega)
      have hgl := congrArg List.length hgrp
      simp only [List.length_append] at hgl
      cases gpost with
      | cons j gpost =>
        have hstop := hreach.stop (by simp)
        have hshort : gpre.length < 8 := by
          have hj : 0 < (j::gpost).length := by simp
          omega
        refine ⟨gpre,(j::gpost) ++ is.drop 7,t,?_,?_,htp,?_,⟨fun hne => ?_,fun _ => hstop⟩⟩
        · rw [hsplit,hgrp,List.append_assoc]
        · rw [hrun,items_stop (.inl hstop)]
          exact decode_stop fuel (.inl hstop)
        · rw [htsp,length_encode,itemStart]
          rcases List.eq_nil_or_concat gpre with rfl | ⟨p,k,rfl⟩
          · exact .inr ⟨by simp,by simpa using hsp,by simp⟩
          · left
            rw [List.length_concat] at hshort ⊢
            omega
        · have hlt := hreach.last hne
          have hdl := gpre.length_dropLast
          simp only [itemStart]
          omega
      | nil =>
        rw [List.append_nil] at hgrp
        rw [← hgrp] at hrun htp htsp hreach
        have hlen' : ((i::is.take 7).foldl Item.emit out).length =
            out.length+((i::is.take 7).map Item.size).sum := length_foldl_emit _ _
        -- behind the last item the control bits are used up, or they are zero and the output is complete
        have hlast : items src srcend destend (8-(i::is.take 7).length+0)
            ((UInt8.ofNat (controlBits (i::is.take 7))).toNat/2^(i::is.take 7).length) t = .ok t := by
          rcases Nat.lt_or_ge 6 is.length with hlt | hge
          · rw [show 8-(i::is.take 7).length+0 = 0 by rw [List.length_cons,List.length_take]; omega]
            rfl
          · have hdrop : is.drop 7 = [] := List.drop_of_length_le (by omega)
            rw [hdrop,List.map_nil,List.sum_nil] at hend
            have htdp := htp.dp
            refine items_stop (.inr ⟨by omega,?_⟩)
            rw [toNat_controlBits hlen,Nat.div_eq_of_lt (controlBits_lt _)]
        have hrun' : decode src srcend destend (fuel+1) s = decode src srcend destend fuel t := by
          rw [hrun,List.length_nil,hlast]
          rfl
        have htsp' : t.sp = s.sp+(((i::is.take 7).flatMap encodeItem).length+1) := by omega
        obtain ⟨pre,post,s',hrest,hs',hp,hsp',hreach'⟩ := ih fuel hcr htp (by rw [hlen']; exact hv.2)
          (by rw [htsp']; exact hr) (by omega) (by omega) (by omega)
        have hfull : 0 < pre.length+post.length → (i::is.take 7).length = 8 := by
          have hd := congrArg List.length hrest
          simp only [List.length_drop,List.length_append] at hd
          rw [List.length_cons,List.length_take]
          omega
        have hone : 1 ≤ (i::is.take 7).length := by simp
        refine ⟨(i::is.take 7) ++ pre,post,s',?_,by rw [hrun',hs'],by rw [List.foldl_append]; exact hp,
          ?_,⟨fun _ => ?_,hreach'.stop⟩⟩
        · rw [List.append_assoc,← hrest,← hsplit]
        · rw [length_encode,itemStart] at hsp' ⊢
          rw [List.flatMap_append,List.length_append,List.length_append]
          rcases hsp' with hsp' | ⟨hsp',hctrl',hne⟩
          · left
            omega
          · right
            have hpost := List.length_pos_iff.mpr hne
            exact ⟨by omega,by omega,hne⟩
        · rcases List.eq_nil_or_concat pre with rfl | ⟨p,j,rfl⟩
          · have hlt := hreach.last (by simp)
            have hdl := (i::is.take 7).length_dropLast
            rw [List.append_nil,itemStart]
            omega
          · have hlt := hreach'.last (by simp)
            simp only [List.concat_eq_append,List.length_append,List.length_singleton] at hfull hlt ⊢
            rw [← List.append_assoc,List.dropLast_concat,itemStart,List.flatMap_append,List.length_append,
              List.length_append]
            rw [List.dropLast_concat,itemStart] at hlt
            omega
    · exact ⟨[],i::is,s,rfl,decode_stop fuel (.inl (by omega)),h,.inl (by simp [encode]),
        ⟨fun hne => absurd rfl hne,fun _ => by omega⟩⟩

end Decoding

theorem pglzDecompress_reaches (e : PglzStream) (source dest : ℕ → UInt8)
    (hsrc : Holds source 8 e.bytes) (hraw : int32 (le32 source 4) = e.expansion.length) :
    ∃ pre post s, e.items = pre ++ post ∧ Produced (8+e.bytes.length) dest s (expand pre) ∧
      (s.sp = 8+(encode pre).length ∨ s.sp = 8+itemStart pre ∧
        8+(encode pre).length < varsize (le32 source 0) ∧ post ≠ []) ∧
      Reached (varsize (le32 source 0)) (fun is => 8+itemStart is) pre post s.sp ∧
      pglzDecompress source dest =
        ⟨if post ≠ [] ∧ s.sp ≠ varsize (le32 source 0) then .aborted else .returned,s⟩ := by
  have hstart : Produced (8+e.bytes.length) dest (.start dest) [] := by
    refine ⟨rfl,holds_nil _ _,fun _ _ => rfl,fun i hi => ?_⟩
    simp only [Decoder.start,List.mem_map,List.mem_range,Access.source.injEq] at hi
    omega
  have hsize : ([] : List UInt8).length+(e.items.map Item.size).sum = e.expansion.length := by
    rw [PglzStream.expansion,length_expand,List.length_nil,Nat.zero_add]
  obtain ⟨pre,post,s,hitems,hs,hp,hsp,hreach⟩ := decode_encoded (varsize (le32 source 0)) e.items
    (varsize (le32 source 0)) e.codable hstart e.valid hsrc rfl hsize
    (by simp only [Decoder.start]; omega)
  have hdp : (s.dp : ℤ) < e.expansion.length ↔ post ≠ [] := by
    rw [hp.dp,Int.ofNat_lt,PglzStream.expansion,hitems]
    exact lt_length_expand fun i hi => e.codable i (by rw [hitems]; exact List.mem_append_right _ hi)
  refine ⟨pre,post,s,hitems,hp,hsp,hreach,?_⟩
  simp only [pglzDecompress,hraw,hs,hdp]
  split <;> rfl

theorem pglzDecompress_not_gaveUp (e : PglzStream) (source dest : ℕ → UInt8)
    (hsrc : Holds source 8 e.bytes) (hraw : int32 (le32 source 4) = e.expansion.length) :
    (pglzDecompress source dest).exit = .returned ∨ (pglzDecompress source dest).exit = .aborted := by
  obtain ⟨pre,post,s,-,-,-,-,hrun⟩ := pglzDecompress_reaches e source dest hsrc hraw
  rw [hrun]
  dsimp only
  split
  · exact .inr rfl
  · exact .inl rfl

theorem pglzDecompress_produces (e : PglzStream) (source dest : ℕ → UInt8)
    (hsrc : Holds source 8 e.bytes) (hraw : int32 (le32 source 4) = e.expansion.length)
    (hvar : 8+e.bytes.length ≤ varsize (le32 source 0)) :
    ∃ s, pglzDecompress source dest = ⟨.returned,s⟩ ∧
      Produced (8+e.bytes.length) dest s e.expansion := by
  obtain ⟨pre,post,s,hitems,hp,hsp,hreach,hrun⟩ := pglzDecompress_reaches e source dest hsrc hraw
  have hall : post = [] := by
    by_contra hne
    have hstop := hreach.stop hne
    have hlt := itemStart_lt_length_encode pre hne
    have hle := length_encode_le_itemStart pre
    rw [← hitems] at hlt
    rw [PglzStream.bytes] at hvar
    omega
  rw [hall,List.append_nil] at hitems
  rw [← hitems] at hp
  exact ⟨s,by simpa [hall] using hrun,hp⟩

/-- An end of the input behind which no part of the text is encoded but zero bytes: it lies
behind the start of the last item, or at an item or its control byte from which on the text
is zero. -/
def CoversText (e : PglzStream) (srcend : ℕ) : Prop :=
  8+itemStart e.items.dropLast < srcend ∨
    ∃ pre post, e.items = pre ++ post ∧
      (srcend = 8+(encode pre).length ∨ srcend = 8+itemStart pre) ∧
      ∀ b ∈ e.expansion.drop (expand pre).length, b = 0

theorem pglzDecompress_text_iff (e : PglzStream) (source dest : ℕ → UInt8)
    (hsrc : Holds source 8 e.bytes) (hraw : int32 (le32 source 4) = e.expansion.length)
    (hzero : ∀ i < e.expansion.length, dest i = 0) (hne : e.expansion ≠ []) :
    (pglzDecompress source dest).exit = .returned ∧
        Holds (pglzDecompress source dest).state.dest 0 e.expansion ↔
      CoversText e (varsize (le32 source 0)) := by
  obtain ⟨pre,post,s,hitems,hp,hsp,hreach,hrun⟩ := pglzDecompress_reaches e source dest hsrc hraw
  obtain ⟨l,hl⟩ := expand_prefix pre post
  rw [← hitems] at hl
  have hholds : Holds s.dest 0 e.expansion ↔ ∀ b ∈ e.expansion.drop (expand pre).length, b = 0 := by
    have hlen := congrArg List.length hl
    rw [List.length_append] at hlen
    rw [PglzStream.expansion] at hzero ⊢
    rw [← hl,List.drop_left,holds_append,Nat.zero_add,← holds_iff_of_const]
    · exact and_iff_right hp.dest
    · intro i hi
      rw [hp.rest _ (by omega)]
      exact hzero _ (by omega)
  rw [hrun]
  simp only [hholds]
  constructor
  · rintro ⟨hexit,htail⟩
    have hat : post ≠ [] → s.sp = varsize (le32 source 0) := by
      intro hpost
      by_contra h
      simp [hpost,h] at hexit
    rcases eq_or_ne post [] with rfl | hpost
    · left
      rw [List.append_nil] at hitems
      rw [hitems]
      refine hreach.last fun hnil => hne ?_
      rw [PglzStream.expansion,hitems,hnil]
      rfl
    · refine .inr ⟨pre,post,hitems,?_,htail⟩
      rw [← hat hpost]
      exact hsp.imp_right And.left
  · rintro (hlast | ⟨pre',post',hitems',hat,htail⟩)
    · have hpost : post = [] := by
        by_contra h
        have hstop := hreach.stop h
        have hle := itemStart_le_append pre post.dropLast
        have henc := length_encode_le_itemStart pre
        rw [hitems,List.dropLast_append_of_ne_nil h] at hlast
        omega
      rw [hpost,List.append_nil] at hitems
      simp [hpost,PglzStream.expansion,hitems]
    · have henc := length_encode_le_itemStart pre
      have hpre : pre = pre' := by
        rw [hitems] at hitems'
        rcases List.append_eq_append_iff.mp hitems' with ⟨q,hq,hpost⟩ | ⟨q,hq,-⟩
        · -- stopped before `pre'` is complete, so the end of the input comes before that
          by_contra h
          have hne' : q ≠ [] := fun hnil => h (by rw [hq,hnil,List.append_nil])
          have hstop := hreach.stop (by rw [hpost]; simp [hne'])
          have hlt := itemStart_lt_length_encode pre hne'
          have henc' := length_encode_le_itemStart pre'
          rw [← hq] at hlt
          omega
        · -- an item behind `pre'` was taken, so the end of the input comes after it
          by_contra h
          have hne' : q ≠ [] := fun hnil => h (by rw [hq,hnil,List.append_nil])
          have hlt := hreach.last (by rw [hq]; simp [hne'])
          have hle := itemStart_le_append pre' q.dropLast
          have henc' := length_encode_le_itemStart pre'
          rw [hq,List.dropLast_append_of_ne_nil hne'] at hlt
          omega
      rw [← hpre] at hat htail
      refine ⟨?_,htail⟩
      rw [if_neg]
      rintro ⟨hpost,hne'⟩
      have hstop := hreach.stop hpost
      omega

/-- Round trip. The modified decoder turns every encoded stream into its expansion and
changes no other output byte, for every header length that covers the stream; it neither
gives up nor aborts, and reads no source byte behind the stream. -/
theorem pglzDecompress_encoded (e : PglzStream) (source dest : ℕ → UInt8)
    (hsrc : Holds source 8 e.bytes) (hraw : int32 (le32 source 4) = e.expansion.length)
    (hvar : 8+e.bytes.length ≤ varsize (le32 source 0)) :
    (pglzDecompress source dest).exit = .returned ∧
      window (pglzDecompress source dest).state.dest 0 e.expansion.length = e.expansion ∧
      (∀ i, e.expansion.length ≤ i → (pglzDecompress source dest).state.dest i = dest i) ∧
      ∀ i : ℕ, .source i ∈ (pglzDecompress source dest).state.log → i < 8+e.bytes.length := by
  obtain ⟨s,hs,hp⟩ := pglzDecompress_produces e source dest hsrc hraw hvar
  rw [hs]
  exact ⟨rfl,hp.dest,hp.rest,hp.source⟩

def runStream : PglzStream where
  items := [.literal 0x61,.backref 1 3]
  codable := by decide
  valid := ⟨le_rfl,le_rfl,trivial⟩

theorem runStream_bytes : runStream.bytes = [2,0x61,0,1] := by
  rw [PglzStream.bytes,runStream,encode,groupsOf_of_length_le (by decide)]
  decide

/-- A datum with that stream whose header claims 100 bytes. -/
def runSource : ℕ → UInt8 :=
  fun i => ([0x90,1,0,0,4,0,0,0,2,0x61,0,1] : List UInt8).getD i 0xff

theorem pglzDecompress_runSource :
    (pglzDecompress runSource fun _ => 0).exit = .returned ∧
      window (pglzDecompress runSource fun _ => 0).state.dest 0 4 = [0x61,0x61,0x61,0x61] ∧
      ∀ i : ℕ, .source i ∈ (pglzDecompress runSource fun _ => 0).state.log → i < 12 := by
  have hlen : runStream.bytes.length = 4 := by rw [runStream_bytes]; rfl
  have h := pglzDecompress_encoded runStream runSource (fun _ => 0)
    (by rw [runStream_bytes]; exact rfl) (by decide) (by rw [hlen]; decide)
  rw [hlen] at h
  exact ⟨h.1,h.2.1,h.2.2.2⟩

end PageDumper
