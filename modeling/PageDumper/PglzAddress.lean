import PageDumper.PglzBounds
import PageDumper.PglzTokens

/-! `pglz_decompress` on the addresses that it computes with, which are those of a machine with
64-bit pointers. On an output area around which no address wraps it is the function on
offsets, wherever the area lies. A vector without elements has no area: its address is NULL, the
end of the output lies at the top of the address space, and the first access kills the process. -/
namespace PageDumper
open Memory Words

/-- Sums and differences of addresses wrap. -/
def wrap (a : ℤ) : ℕ := (a % 2^64).toNat

/-- The first and the last page of the address space hold no memory. -/
def Unmapped (a : ℕ) : Prop := a < 4096 ∨ 2^64-4096 ≤ a

instance (a : ℕ) : Decidable (Unmapped a) := inferInstanceAs (Decidable (_ ∨ _))

theorem wrap_of_lt {a : ℤ} (h₀ : 0 ≤ a) (h : a < 2^64) : (wrap a : ℤ) = a := by
  rw [wrap]
  omega

/-! In this module the fields `dp` and `dest` of a `Decoder` are an address and the memory at all
addresses, and so are the indices of the loads and stores in its log. -/

namespace Decoder

def load (a : ℕ) (s : Decoder) : Except (Exit × Decoder) (UInt8 × Decoder) :=
  let s := { s with log := .load a::s.log }
  if Unmapped a then .error (.killed,s) else .ok (s.dest a,s)

def store (a : ℕ) (b : UInt8) (s : Decoder) : Except (Exit × Decoder) Decoder :=
  let s := { s with log := .store a::s.log }
  if Unmapped a then .error (.killed,s) else .ok { s with dest := Function.update s.dest a b }

def advance (len : ℕ) (s : Decoder) : Decoder := { s with dp := wrap (s.dp+len) }

end Decoder

def copyTagAt (dest off : ℕ) : ℕ → Decoder → Except (Exit × Decoder) Decoder
  | 0, s => .ok s
  | len+1, s =>
    if dest ≤ wrap (s.dp-off) then do
      let byte ← s.load (wrap (s.dp-off))
      let s ← byte.2.store s.dp byte.1
      copyTagAt dest off len (s.advance 1)
    else do
      let s ← s.store dest 0x63
      let s ← s.store (wrap (dest+1)) 0x63
      .error (.gaveUp,s)

section Loops

variable (src : ℕ → UInt8) (srcend dest destend : ℕ)

def itemsAt : ℕ → ℕ → Decoder → Except (Exit × Decoder) Decoder
  | 0, _, s => .ok s
  | ctrlc+1, ctrl, s =>
    if s.sp < srcend then
      if ctrl &&& 1 ≠ 0 then
        let tag := readTag src s
        if destend < wrap (tag.2.dp+tag.1.1) then .ok (tag.2.advance tag.1.1)
        else do
          let s ← copyTagAt dest tag.1.2 tag.1.1 tag.2
          itemsAt ctrlc (ctrl >>> 1) s
      else if destend ≤ s.dp then .ok s
      else do
        let byte := s.fetch src
        let s ← byte.2.store s.dp byte.1
        itemsAt ctrlc (ctrl >>> 1) (s.advance 1)
    else .ok s

/-- The outer loop; the first argument is fuel. -/
def decodeAt : ℕ → Decoder → Except (Exit × Decoder) Decoder
  | 0, s => .ok s
  | fuel+1, s =>
    if s.sp < srcend ∧ s.dp < destend then do
      let ctrl := s.fetch src
      let s ← itemsAt src srcend dest destend 8 ctrl.1.toNat ctrl.2
      decodeAt fuel s
    else .ok s

end Loops

def Decoder.startAt (dest : ℕ) (memory : ℕ → UInt8) : Decoder :=
  ⟨8,dest,memory,(List.range 8).map .source⟩

/-- `pglz_decompress` with `dest` as an address. -/
def pglzDecompressAt (source : ℕ → UInt8) (dest : ℕ) (memory : ℕ → UInt8) : Decompressed :=
  let srcend := varsize (le32 source 0)
  let destend := wrap (dest+int32 (le32 source 4))
  match decodeAt source srcend dest destend srcend (.startAt dest memory) with
  | .error left => ⟨left.1,left.2⟩
  | .ok s => if s.dp < destend ∧ s.sp ≠ srcend then ⟨.aborted,s⟩ else ⟨.returned,s⟩

/-! ### What every run does -/

def leftState : Except (Exit × Decoder) Decoder → Decoder
  | .ok s => s
  | .error left => left.2

@[simp] theorem leftState_ok (s : Decoder) : leftState (.ok s) = s := rfl
@[simp] theorem leftState_error (left : Exit × Decoder) : leftState (.error left) = left.2 := rfl

theorem pglzDecompressAt_of_ok {source : ℕ → UInt8} {dest : ℕ} {memory : ℕ → UInt8} {s : Decoder}
    (h : decodeAt source (varsize (le32 source 0)) dest (wrap (dest+int32 (le32 source 4)))
      (varsize (le32 source 0)) (.startAt dest memory) = .ok s) :
    pglzDecompressAt source dest memory =
      ⟨if s.dp < wrap (dest+int32 (le32 source 4)) ∧ s.sp ≠ varsize (le32 source 0) then .aborted
        else .returned,s⟩ := by
  simp only [pglzDecompressAt,h]
  split <;> rfl

theorem pglzDecompressAt_of_error {source : ℕ → UInt8} {dest : ℕ} {memory : ℕ → UInt8}
    {left : Exit × Decoder}
    (h : decodeAt source (varsize (le32 source 0)) dest (wrap (dest+int32 (le32 source 4)))
      (varsize (le32 source 0)) (.startAt dest memory) = .error left) :
    pglzDecompressAt source dest memory = ⟨left.1,left.2⟩ := by
  simp only [pglzDecompressAt,h]

theorem pglzDecompressAt_state (source : ℕ → UInt8) (dest : ℕ) (memory : ℕ → UInt8) :
    (pglzDecompressAt source dest memory).state =
      leftState (decodeAt source (varsize (le32 source 0)) dest (wrap (dest+int32 (le32 source 4)))
        (varsize (le32 source 0)) (.startAt dest memory)) := by
  cases h : decodeAt source (varsize (le32 source 0)) dest (wrap (dest+int32 (le32 source 4)))
      (varsize (le32 source 0)) (.startAt dest memory) with
  | error left => rw [pglzDecompressAt_of_error h,leftState_error]
  | ok s => rw [pglzDecompressAt_of_ok h,leftState_ok]

/-- A run moves on in its input and adds to its log. -/
structure Before (s t : Decoder) : Prop where
  sp : s.sp ≤ t.sp
  log : s.log <:+ t.log

namespace Before

variable {s t u : Decoder}

theorem refl (s : Decoder) : Before s s := ⟨le_rfl,List.suffix_rfl⟩

theorem trans (h : Before s t) (h' : Before t u) : Before s u := ⟨h.sp.trans h'.sp,h.log.trans h'.log⟩

theorem access (a : Access) (s : Decoder) : Before s { s with log := a::s.log } :=
  ⟨le_rfl,List.suffix_cons _ _⟩

theorem advance (len : ℕ) (s : Decoder) : Before s (s.advance len) := ⟨le_rfl,List.suffix_rfl⟩

theorem fetch (src : ℕ → UInt8) (s : Decoder) : Before s (s.fetch src).2 :=
  ⟨Nat.le_succ _,List.suffix_cons _ _⟩

theorem readTag (src : ℕ → UInt8) (s : Decoder) : Before s (readTag src s).2 := by
  simp only [PageDumper.readTag]
  split
  · exact ⟨by simp only [Decoder.fetch]; omega,List.suffix_append [_,_,_] _⟩
  · exact ⟨by simp only []; omega,List.suffix_append [_,_] _⟩

theorem bind (r : Except (Exit × Decoder) Decoder) {f : Decoder → Except (Exit × Decoder) Decoder}
    (hf : ∀ t, Before t (leftState (f t))) : Before (leftState r) (leftState (r >>= f)) := by
  cases r with
  | error left => exact refl left.2
  | ok t => exact hf t

theorem load {f : UInt8 × Decoder → Except (Exit × Decoder) Decoder} (a : ℕ) (s : Decoder)
    (hf : ∀ b t, Before t (leftState (f (b,t)))) :
    Before { s with log := .load a::s.log } (leftState (s.load a >>= f)) := by
  simp only [Decoder.load]
  split
  · exact refl _
  · exact hf _ _

theorem store {f : Decoder → Except (Exit × Decoder) Decoder} (a : ℕ) (b : UInt8) (s : Decoder)
    (hf : ∀ t, Before t (leftState (f t))) :
    Before { s with log := .store a::s.log } (leftState (s.store a b >>= f)) := by
  simp only [Decoder.store]
  split
  · exact refl _
  · have h := hf { s with dest := Function.update s.dest a b, log := .store a::s.log }
    exact ⟨h.sp,h.log⟩

theorem copyTagAt (dest off len : ℕ) (s : Decoder) :
    Before s (leftState (copyTagAt dest off len s)) := by
  induction len generalizing s with
  | zero => exact refl s
  | succ len ih =>
    rw [PageDumper.copyTagAt]
    split
    · exact (access _ s).trans <| load _ s fun b t => (access _ t).trans <| store _ b t fun u =>
        (advance 1 u).trans (ih _)
    · exact (access _ s).trans <| store _ _ s fun t => (access _ t).trans <| store _ _ t refl

theorem itemsAt (src : ℕ → UInt8) (srcend dest destend k ctrl : ℕ) (s : Decoder) :
    Before s (leftState (itemsAt src srcend dest destend k ctrl s)) := by
  induction k generalizing ctrl s with
  | zero => exact refl s
  | succ k ih =>
    simp only [PageDumper.itemsAt]
    split_ifs
    · exact (readTag src s).trans (advance _ _)
    · exact ((readTag src s).trans (copyTagAt dest _ _ _)).trans <| bind _ (ih _)
    · exact refl s
    · exact (fetch src s).trans <| (access _ _).trans <| store _ _ _ fun t => (advance 1 t).trans (ih _ _)
    · exact refl s

theorem decodeAt (src : ℕ → UInt8) (srcend dest destend fuel : ℕ) (s : Decoder) :
    Before s (leftState (decodeAt src srcend dest destend fuel s)) := by
  induction fuel generalizing s with
  | zero => exact refl s
  | succ fuel ih =>
    rw [PageDumper.decodeAt]
    split
    · exact ((fetch src s).trans (itemsAt src srcend dest destend 8 _ _)).trans <| bind _ ih
    · exact refl s

end Before

section Termination

variable {src : ℕ → UInt8} {srcend dest destend : ℕ}

theorem decodeAt_stop (fuel : ℕ) {s : Decoder} (h : srcend ≤ s.sp ∨ destend ≤ s.dp) :
    decodeAt src srcend dest destend fuel s = .ok s := by
  cases fuel with
  | zero => rfl
  | succ fuel => rw [decodeAt,if_neg (by omega)]

theorem lt_sp_of_itemsAt {s t : Decoder} {ctrl : ℕ}
    (h : itemsAt src srcend dest destend 8 ctrl (s.fetch src).2 = .ok t) : s.sp < t.sp := by
  have hb := Before.itemsAt src srcend dest destend 8 ctrl (s.fetch src).2
  rw [h] at hb
  exact hb.sp

theorem decodeAt_exits (fuel : ℕ) (s t : Decoder) (hf : srcend ≤ s.sp+fuel)
    (h : decodeAt src srcend dest destend fuel s = .ok t) : ¬ (t.sp < srcend ∧ t.dp < destend) := by
  induction fuel generalizing s with
  | zero =>
    cases h
    omega
  | succ fuel ih =>
    rw [decodeAt] at h
    split at h
    · cases hi : itemsAt src srcend dest destend 8 (s.fetch src).1.toNat (s.fetch src).2 with
      | error left =>
        simp only [hi] at h
        cases h
      | ok u =>
        simp only [hi] at h
        have := lt_sp_of_itemsAt hi
        exact ih u (by omega) h
    · rename_i hc
      cases h
      exact hc

theorem decodeAt_fuel (fuel : ℕ) (s : Decoder) (hf : srcend ≤ s.sp+fuel) (k : ℕ) :
    decodeAt src srcend dest destend (fuel+k) s = decodeAt src srcend dest destend fuel s := by
  induction fuel generalizing s with
  | zero => rw [decodeAt_stop _ (by omega),decodeAt_stop _ (by omega)]
  | succ fuel ih =>
    rw [Nat.add_right_comm,decodeAt,decodeAt]
    split
    · cases hi : itemsAt src srcend dest destend 8 (s.fetch src).1.toNat (s.fetch src).2 with
      | error left => simp only [hi]; rfl
      | ok u =>
        have := lt_sp_of_itemsAt hi
        simp only [hi]
        exact ih u (by omega)
    · rfl

end Termination

/-! ### Output areas -/

theorem readTag_bounds (src : ℕ → UInt8) (s : Decoder) :
    (readTag src s).1.1 ≤ 273 ∧ (readTag src s).1.2 < 4096 := by
  have h₁ : (src s.sp).toNat &&& 0x0f ≤ 15 := Nat.and_le_right
  have h₂ : (src s.sp).toNat &&& 0xf0 ≤ 240 := Nat.and_le_right
  have hoff : (((src s.sp).toNat &&& 0xf0) <<< 4) ||| (src (s.sp+1)).toNat < 2^12 := by
    refine Nat.or_lt_two_pow ?_ ?_
    · rw [Nat.shiftLeft_eq]
      omega
    · have := (src (s.sp+1)).toNat_lt
      omega
  have h₃ := (src (s.sp+2)).toNat_lt
  simp only [readTag]
  split
  · exact ⟨by simp only [Decoder.fetch]; omega,hoff⟩
  · exact ⟨by simp only []; omega,hoff⟩

/-- An area for `rawsize` bytes and a spare kilobyte around which no address wraps. -/
structure OutputArea (dest : ℕ) (rawsize : ℤ) : Prop where
  mapped : 4096 ≤ dest
  start : 0 ≤ dest+rawsize
  room : dest+rawsize+1024 ≤ 2^64-4096

def Access.shift (dest : ℕ) : Access → Access
  | source i => source i
  | load i => load (dest+i)
  | store i => store (dest+i)

/-- The state with addresses in place of offsets, in a memory of which the area is a part. -/
def Decoder.shift (dest : ℕ) (memory : ℕ → UInt8) (s : Decoder) : Decoder where
  sp := s.sp
  dp := dest+s.dp
  dest a := if a < dest then memory a else s.dest (a-dest)
  log := s.log.map (.shift dest)

def shifted (dest : ℕ) (memory : ℕ → UInt8) : Except Decoder Decoder → Except (Exit × Decoder) Decoder
  | .ok s => .ok (s.shift dest memory)
  | .error s => .error (.gaveUp,s.shift dest memory)

section Shift

variable {dest : ℕ} {rawsize : ℤ} {memory : ℕ → UInt8} {src : ℕ → UInt8} {srcend : ℕ}

theorem shift_load {i : ℕ} (s : Decoder) (h : ¬ Unmapped (dest+i)) :
    (s.shift dest memory).load (dest+i) =
      .ok (s.dest i,Decoder.shift dest memory { s with log := .load i::s.log }) := by
  have hi : (s.shift dest memory).dest (dest+i) = s.dest i := by
    simp only [Decoder.shift]
    rw [if_neg (by omega),Nat.add_sub_cancel_left]
  simp only [Decoder.load,if_neg h,hi]
  rfl

theorem shift_store {i : ℕ} {b : UInt8} (s : Decoder) (h : ¬ Unmapped (dest+i)) :
    (s.shift dest memory).store (dest+i) b = .ok (Decoder.shift dest memory
      { s with dest := Function.update s.dest i b, log := .store i::s.log }) := by
  have hdest : Function.update (s.shift dest memory).dest (dest+i) b =
      fun a => if a < dest then memory a else Function.update s.dest i b (a-dest) := by
    funext a
    simp only [Decoder.shift,Function.update_apply]
    split_ifs <;> first | rfl | omega
  simp only [Decoder.store,if_neg h,hdest]
  rfl

theorem shift_advance {len : ℕ} (s : Decoder) (h : dest+s.dp+len < 2^64) :
    (s.shift dest memory).advance len = Decoder.shift dest memory (s.skip len) := by
  have hw := wrap_of_lt (a := (s.shift dest memory).dp+len) (by omega) (by simp only [Decoder.shift]; omega)
  have hdp : wrap ((s.shift dest memory).dp+len) = dest+(s.dp+len) := by
    simp only [Decoder.shift] at hw ⊢
    omega
  simp only [Decoder.advance,hdp]
  rfl

theorem shift_readTag (s : Decoder) :
    readTag src (s.shift dest memory) = ((readTag src s).1,(readTag src s).2.shift dest memory) := by
  by_cases hlen : ((src s.sp).toNat &&& 0x0f)+3 = 18
  · rw [readTag_three (s := s) rfl rfl rfl hlen,readTag_three (s := s.shift dest memory) rfl rfl rfl hlen]
    rfl
  · rw [readTag_two (s := s) rfl rfl hlen,readTag_two (s := s.shift dest memory) rfl rfl hlen]
    rfl

theorem copyTagAt_shift (h : OutputArea dest rawsize) {off : ℕ} (hoff : off < 4096)
    (h₃ : 3 ≤ rawsize) (len : ℕ) (s : Decoder) (hlen : (s.dp : ℤ)+len ≤ rawsize) :
    copyTagAt dest off len (s.shift dest memory) = shifted dest memory (copyTag off len s) := by
  obtain ⟨hmapped,-,hroom⟩ := h
  induction len generalizing s with
  | zero => rfl
  | succ len ih =>
    push_cast at hlen
    have hback := wrap_of_lt (a := (s.shift dest memory).dp-off)
      (by simp only [Decoder.shift]; omega) (by simp only [Decoder.shift]; omega)
    simp only [Decoder.shift] at hback
    rw [copyTagAt,copyTag]
    by_cases hle : off ≤ s.dp
    · have hfrom : wrap ((s.shift dest memory).dp-off) = dest+(s.dp-off) := by
        simp only [Decoder.shift]
        omega
      have hstep := ih (s.copyByte off) (by simp only [Decoder.copyByte]; omega)
      rw [if_pos (by omega),if_pos hle,hfrom,shift_load s (by simp only [Unmapped]; omega),← hstep]
      change Except.bind (Decoder.store (dest+s.dp) _ _) _ = _
      rw [shift_store _ (by simp only [Unmapped]; omega)]
      change copyTagAt dest off len (Decoder.advance 1 _) = _
      rw [shift_advance _ (by simp only []; omega)]
      rfl
    · rw [if_neg (by simp only [Decoder.shift]; omega),if_neg hle]
      have hone : wrap (dest+1) = dest+1 := by
        have := wrap_of_lt (a := dest+1) (by omega) (by omega)
        omega
      have hzero := @shift_store dest memory 0 0x63 s (by simp only [Unmapped]; omega)
      rw [Nat.add_zero] at hzero
      rw [hzero,hone]
      change Except.bind (Decoder.store (dest+1) _ _) _ = _
      rw [shift_store _ (by simp only [Unmapped]; omega)]
      rfl

theorem shift_lt_destend (h : OutputArea dest rawsize) (n : ℕ) :
    dest+n < wrap (dest+rawsize) ↔ (n : ℤ) < rawsize := by
  obtain ⟨-,hstart,hroom⟩ := h
  have := wrap_of_lt hstart (by omega)
  omega

theorem bind_shifted {r : Except Decoder Decoder} {f : Decoder → Except Decoder Decoder}
    {f' : Decoder → Except (Exit × Decoder) Decoder}
    (hf : ∀ s, r = .ok s → f' (s.shift dest memory) = shifted dest memory (f s)) :
    (shifted dest memory r >>= f') = shifted dest memory (r.bind f) := by
  cases r with
  | error s => rfl
  | ok s => exact hf s rfl

theorem itemsAt_shift (h : OutputArea dest rawsize) (k ctrl : ℕ) (s : Decoder)
    (hdp : (s.dp : ℤ) ≤ rawsize) :
    itemsAt src srcend dest (wrap (dest+rawsize)) k ctrl (s.shift dest memory) =
      shifted dest memory (items src srcend rawsize k ctrl s) := by
  obtain ⟨hmapped,-,hroom⟩ := id h
  induction k generalizing ctrl s with
  | zero => rfl
  | succ k ih =>
    obtain ⟨hlen,hoff⟩ := readTag_bounds src s
    have hthree := le_readTag_len src s
    rw [itemsAt,items,shift_readTag]
    change (if s.sp < srcend then _ else _) = _
    by_cases hsp : s.sp < srcend
    · rw [if_pos hsp,if_pos hsp]
      by_cases hbit : ctrl &&& 1 ≠ 0
      · have hw := wrap_of_lt (a := (((readTag src s).2.shift dest memory).dp : ℤ)+(readTag src s).1.1)
          (by omega) (by simp only [Decoder.shift,readTag_dp]; omega)
        have hto : wrap (((readTag src s).2.shift dest memory).dp+(readTag src s).1.1) =
            dest+(s.dp+(readTag src s).1.1) := by
          simp only [Decoder.shift,readTag_dp] at hw ⊢
          omega
        have hend := wrap_of_lt h.start (by omega)
        rw [if_pos hbit,if_pos hbit]
        dsimp only
        rw [hto,readTag_dp]
        by_cases hover : rawsize < s.dp+(readTag src s).1.1
        · rw [if_pos (by omega),if_pos hover,shift_advance _ (by rw [readTag_dp]; omega)]
          rfl
        · rw [if_neg (by omega),if_neg hover,
            copyTagAt_shift h hoff (by omega) _ _ (by rw [readTag_dp]; omega)]
          refine bind_shifted fun t ht => ih _ t ?_
          rcases Nat.lt_or_ge s.dp (readTag src s).1.2 with hback | hback
          · rw [copyTag_of_lt (by rw [readTag_dp]; exact hback) (by omega)] at ht
            cases ht
          · obtain ⟨t',ht',-,hdp',-⟩ := copyTag_of_le (readTag src s).1.2 (readTag src s).1.1
              (s := (readTag src s).2) (by rw [readTag_dp]; exact hback)
            rw [ht',Except.ok.injEq] at ht
            rw [← ht,hdp',readTag_dp]
            push_cast
            omega
      · have hfull := shift_lt_destend h s.dp
        rw [if_neg hbit,if_neg hbit]
        change (if _ ≤ dest+s.dp then _ else _) = _
        by_cases hle : rawsize ≤ s.dp
        · rw [if_pos (by omega),if_pos hle]
          rfl
        · rw [if_neg (by omega),if_neg hle,← ih _ (s.literal src) (by simp only [Decoder.literal]; omega)]
          change Except.bind (Decoder.store (dest+s.dp) (src s.sp)
            (Decoder.shift dest memory (s.fetch src).2)) _ = _
          rw [shift_store _ (by simp only [Unmapped]; omega)]
          change itemsAt src srcend dest _ k _ (Decoder.advance 1 _) = _
          rw [shift_advance _ (by simp only [Decoder.fetch]; omega)]
          rfl
    · rw [if_neg hsp,if_neg hsp]
      rfl

theorem decodeAt_shift (h : OutputArea dest rawsize) (fuel : ℕ) (s : Decoder) :
    decodeAt src srcend dest (wrap (dest+rawsize)) fuel (s.shift dest memory) =
      shifted dest memory (decode src srcend rawsize fuel s) := by
  induction fuel generalizing s with
  | zero => rfl
  | succ fuel ih =>
    have hiff := shift_lt_destend h s.dp
    rw [decodeAt,decode]
    change (if s.sp < srcend ∧ dest+s.dp < _ then _ else _) = _
    by_cases hc : s.sp < srcend ∧ (s.dp : ℤ) < rawsize
    · rw [if_pos (by omega),if_pos hc]
      change (itemsAt src srcend dest _ 8 _ (Decoder.shift dest memory (s.fetch src).2) >>= _) = _
      rw [itemsAt_shift h 8 _ _ (by simp only [Decoder.fetch]; omega)]
      exact bind_shifted fun t _ => ih t
    · rw [if_neg (by omega),if_neg hc]
      rfl

end Shift

theorem startAt_eq_shift (dest : ℕ) (memory : ℕ → UInt8) :
    Decoder.startAt dest memory = (Decoder.start fun i => memory (dest+i)).shift dest memory := by
  have hdest : memory = fun a => if a < dest then memory a else memory (dest+(a-dest)) := by
    funext a
    split_ifs
    · rfl
    · rw [Nat.add_sub_cancel' (by omega)]
  rw [Decoder.startAt,Decoder.start,Decoder.shift]
  congr 1

/-- Wherever the output area lies, the run is the one on offsets. -/
theorem pglzDecompressAt_of_area {source : ℕ → UInt8} {dest : ℕ}
    (h : OutputArea dest (int32 (le32 source 4))) (memory : ℕ → UInt8) :
    pglzDecompressAt source dest memory =
      let run := pglzDecompress source fun i => memory (dest+i)
      ⟨run.exit,run.state.shift dest memory⟩ := by
  simp only [pglzDecompressAt,pglzDecompress,startAt_eq_shift,decodeAt_shift h]
  cases decode source (varsize (le32 source 0)) (int32 (le32 source 4)) (varsize (le32 source 0))
      (.start fun i => memory (dest+i)) with
  | error s => rfl
  | ok s =>
    have hiff := shift_lt_destend h s.dp
    change (if dest+s.dp < _ ∧ s.sp ≠ _ then _ else _) = _
    dsimp only
    by_cases hc : (s.dp : ℤ) < int32 (le32 source 4) ∧ s.sp ≠ varsize (le32 source 0)
    · rw [if_pos ⟨hiff.mpr hc.1,hc.2⟩,if_pos hc]
    · rw [if_neg (fun h => hc ⟨hiff.mp h.1,h.2⟩),if_neg hc]

end PageDumper
