import PageDumper.Lib.Words

/-! The locally modified `pglz_decompress` of `pg_lzcompress.c`, with its pointers as offsets. This
is the function for every output area around which no address wraps (`PglzAddress` has the
function on addresses). Source and destination are flat memories: what lies behind the compressed datum or behind the output area is
unspecified, not absent. Every dereference is logged, newest first, so that the safety
results speak about the accesses the code makes and not only about its output. -/
namespace PageDumper
open Memory Words

/-- `VARSIZE_4B` on a little-endian machine. -/
def varsize (vaHeader : UInt32) : ℕ := ((vaHeader >>> 2) &&& 0x3FFFFFFF).toNat

inductive Access
  | source (i : ℕ) | load (i : ℕ) | store (i : ℕ)
  deriving DecidableEq

/-- The local pointers `sp` and `dp`, as offsets from `source` and `dest`. -/
structure Decoder where
  sp : ℕ
  dp : ℕ
  dest : ℕ → UInt8
  log : List Access

namespace Decoder

def fetch (src : ℕ → UInt8) (s : Decoder) : UInt8 × Decoder :=
  (src s.sp,{ s with sp := s.sp+1, log := .source s.sp :: s.log })

def literal (src : ℕ → UInt8) (s : Decoder) : Decoder :=
  { sp := s.sp+1, dp := s.dp+1, dest := Function.update s.dest s.dp (src s.sp),
    log := .store s.dp :: .source s.sp :: s.log }

def copyByte (off : ℕ) (s : Decoder) : Decoder :=
  { s with dp := s.dp+1, dest := Function.update s.dest s.dp (s.dest (s.dp-off)),
           log := .store s.dp :: .load (s.dp-off) :: s.log }

/-- The body of `giveup_assertion`: the marker `cc` at the start of the output. -/
def giveup (s : Decoder) : Decoder :=
  { s with dest := Function.update (Function.update s.dest 0 0x63) 1 0x63,
           log := .store 1 :: .store 0 :: s.log }

def skip (len : ℕ) (s : Decoder) : Decoder := { s with dp := s.dp+len }

end Decoder

def readTag (src : ℕ → UInt8) (s : Decoder) : (ℕ × ℕ) × Decoder :=
  let t1 := (src s.sp).toNat
  let t2 := (src (s.sp+1)).toNat
  let len := (t1 &&& 0x0f)+3
  let off := ((t1 &&& 0xf0) <<< 4) ||| t2
  let s := { s with sp := s.sp+2, log := .source (s.sp+1) :: .source s.sp :: s.log }
  if len = 18 then
    let t3 := s.fetch src
    ((len+t3.1.toNat,off),t3.2)
  else ((len,off),s)

/-- The loop `while (len--)`. The error case is the `return` of `giveup_assertion`. -/
def copyTag (off : ℕ) : ℕ → Decoder → Except Decoder Decoder
  | 0, s => .ok s
  | len+1, s => if off ≤ s.dp then copyTag off len (s.copyByte off) else .error s.giveup

section Loops

variable (src : ℕ → UInt8) (srcend : ℕ) (destend : ℤ)

/-- The loop over the bits of one control byte, of which the given number remains. -/
def items : ℕ → ℕ → Decoder → Except Decoder Decoder
  | 0, _, s => .ok s
  | ctrlc+1, ctrl, s =>
    if s.sp < srcend then
      if ctrl &&& 1 ≠ 0 then
        let tag := readTag src s
        if destend < tag.2.dp+tag.1.1 then .ok (tag.2.skip tag.1.1)
        else (copyTag tag.1.2 tag.1.1 tag.2).bind (items ctrlc (ctrl >>> 1))
      else if destend ≤ s.dp then .ok s
      else items ctrlc (ctrl >>> 1) (s.literal src)
    else .ok s

/-- The outer loop, one control byte an iteration; the first argument is fuel. -/
def decode : ℕ → Decoder → Except Decoder Decoder
  | 0, s => .ok s
  | fuel+1, s =>
    if s.sp < srcend ∧ (s.dp : ℤ) < destend then
      let ctrl := s.fetch src
      (items src srcend destend 8 ctrl.1.toNat ctrl.2).bind (decode fuel)
    else .ok s

end Loops

/-- `killed` is by a signal, at an access to an address without memory. -/
inductive Exit
  | returned | gaveUp | aborted | killed
  deriving DecidableEq

structure Decompressed where
  exit : Exit
  state : Decoder

def Decoder.start (dest : ℕ → UInt8) : Decoder := ⟨8,0,dest,(List.range 8).map .source⟩

/-- `pglz_decompress` on an output area. `VARSIZE(source)` iterations are always enough: each one
consumes a source byte. -/
def pglzDecompress (source dest : ℕ → UInt8) : Decompressed :=
  let srcend := varsize (le32 source 0)
  let destend := int32 (le32 source 4)
  match decode source srcend destend srcend (.start dest) with
  | .error s => ⟨.gaveUp,s⟩
  | .ok s => if (s.dp : ℤ) < destend ∧ s.sp ≠ srcend then ⟨.aborted,s⟩ else ⟨.returned,s⟩

theorem varsize_eq (w : UInt32) : varsize w = w.toNat/4 := by
  have h := w.toNat_lt
  have hs : (w >>> 2).toNat = w.toNat/4 := by
    simp [UInt32.toNat_shiftRight,Nat.shiftRight_eq_div_pow]
  have hm : (0x3FFFFFFF : UInt32).toNat = 2^30-1 := rfl
  rw [varsize,UInt32.toNat_and,hs,hm,Nat.and_two_pow_sub_one_eq_mod]
  omega

def final : Except Decoder Decoder → Decoder
  | .ok s | .error s => s

@[simp] theorem final_ok (s : Decoder) : final (.ok s) = s := rfl
@[simp] theorem final_error (s : Decoder) : final (.error s) = s := rfl

theorem pglzDecompress_state (source dest : ℕ → UInt8) :
    (pglzDecompress source dest).state =
      final (decode source (varsize (le32 source 0)) (int32 (le32 source 4))
        (varsize (le32 source 0)) (.start dest)) := by
  simp only [pglzDecompress]
  split
  · rename_i h
    simp [h]
  · rename_i h
    rw [h]
    split <;> rfl

theorem le_readTag_len (src : ℕ → UInt8) (s : Decoder) : 3 ≤ (readTag src s).1.1 := by
  simp only [readTag]
  split <;> simp only [] <;> omega

@[simp] theorem readTag_dp (src : ℕ → UInt8) (s : Decoder) : (readTag src s).2.dp = s.dp := by
  simp only [readTag]
  split <;> rfl

@[simp] theorem readTag_dest (src : ℕ → UInt8) (s : Decoder) : (readTag src s).2.dest = s.dest := by
  simp only [readTag]
  split <;> rfl

theorem lt_readTag_sp (src : ℕ → UInt8) (s : Decoder) : s.sp < (readTag src s).2.sp := by
  simp only [readTag]
  split <;> simp only [Decoder.fetch] <;> omega

/-- What one elementary step may assume and must keep, for an invariant of the run. -/
structure Inductive (src : ℕ → UInt8) (srcend : ℕ) (destend : ℤ) (I : Decoder → Prop) : Prop where
  control : ∀ s, I s → s.sp < srcend → (s.dp : ℤ) < destend → I (s.fetch src).2
  literal : ∀ s, I s → s.sp < srcend → (s.dp : ℤ) < destend → I (s.literal src)
  tag : ∀ s, I s → s.sp < srcend → I (readTag src s).2
  overrun : ∀ s (len : ℕ), I s → destend < s.dp+len → I (s.skip len)
  copy : ∀ s off, I s → off ≤ s.dp → (s.dp : ℤ) < destend → I (s.copyByte off)
  giveup : ∀ s, I s → 3 ≤ destend → I s.giveup

section Invariants

variable {src : ℕ → UInt8} {srcend : ℕ} {destend : ℤ} {I : Decoder → Prop}

theorem final_bind {r : Except Decoder Decoder} {f : Decoder → Except Decoder Decoder}
    (hr : I (final r)) (hf : ∀ s, r = .ok s → I s → I (final (f s))) : I (final (r.bind f)) := by
  cases r with
  | error s => exact hr
  | ok s => exact hf s rfl hr

theorem copyTag_invariant (hI : Inductive src srcend destend I) (off len : ℕ) (s : Decoder)
    (hs : I s) (h₃ : 3 ≤ destend) (hlen : (s.dp : ℤ)+len ≤ destend) :
    I (final (copyTag off len s)) := by
  induction len generalizing s with
  | zero => exact hs
  | succ len ih =>
    simp only [copyTag]
    push_cast at hlen
    split
    · rename_i hoff
      apply ih _ (hI.copy s off hs hoff (by omega))
      simp only [Decoder.copyByte]
      push_cast
      omega
    · exact hI.giveup s hs h₃

theorem items_invariant (hI : Inductive src srcend destend I) (ctrlc ctrl : ℕ) (s : Decoder)
    (hs : I s) : I (final (items src srcend destend ctrlc ctrl s)) := by
  induction ctrlc generalizing ctrl s with
  | zero => exact hs
  | succ ctrlc ih =>
    simp only [items]
    split_ifs with hsp hbit hover hfull
    · exact hI.overrun _ _ (hI.tag s hs hsp) hover
    · have hlen := le_readTag_len src s
      have ht := hI.tag s hs hsp
      exact final_bind (copyTag_invariant hI _ _ _ ht (by omega) (by omega))
        fun s' _ hs' => ih _ s' hs'
    · exact hs
    · exact ih _ _ (hI.literal s hs hsp (by omega))
    · exact hs

theorem decode_invariant (hI : Inductive src srcend destend I) (fuel : ℕ) (s : Decoder)
    (hs : I s) : I (final (decode src srcend destend fuel s)) := by
  induction fuel generalizing s with
  | zero => exact hs
  | succ fuel ih =>
    simp only [decode]
    split_ifs with h
    · have hc := hI.control s hs h.1 h.2
      exact final_bind (items_invariant hI 8 _ _ hc) fun s' _ hs' => ih s' hs'
    · exact hs

theorem inductive_sp (src : ℕ → UInt8) (srcend : ℕ) (destend : ℤ) (k : ℕ) :
    Inductive src srcend destend (fun s => k ≤ s.sp) where
  control s h _ _ := by simp only [Decoder.fetch]; omega
  literal s h _ _ := by simp only [Decoder.literal]; omega
  tag s h _ := by have := lt_readTag_sp src s; omega
  overrun s len h _ := h
  copy s off h _ _ := h
  giveup s h _ := h

theorem decode_stop (fuel : ℕ) {s : Decoder} (h : srcend ≤ s.sp ∨ destend ≤ s.dp) :
    decode src srcend destend fuel s = .ok s := by
  cases fuel with
  | zero => rfl
  | succ fuel => rw [decode,if_neg (by omega)]

/-- The decoder can only stop by a condition of its own loops: with one unit of fuel
for each remaining source byte the outer condition fails at the normal exit. -/
theorem decode_exits (fuel : ℕ) (s s' : Decoder) (hf : srcend ≤ s.sp+fuel)
    (h : decode src srcend destend fuel s = .ok s') :
    ¬ (s'.sp < srcend ∧ (s'.dp : ℤ) < destend) := by
  induction fuel generalizing s with
  | zero =>
    cases h
    omega
  | succ fuel ih =>
    simp only [decode] at h
    split_ifs at h with hc
    · cases hi : items src srcend destend 8 (s.fetch src).1.toNat (s.fetch src).2 with
      | error e => simp [hi,Except.bind] at h
      | ok t =>
        have hsp := items_invariant (inductive_sp src srcend destend (s.sp+1)) 8
          (s.fetch src).1.toNat (s.fetch src).2 le_rfl
        rw [hi] at hsp
        simp only [hi,Except.bind] at h
        exact ih t (by simp only [final_ok] at hsp; omega) h
    · cases h
      exact hc

theorem decode_fuel (fuel : ℕ) (s : Decoder) (hf : srcend ≤ s.sp+fuel) (k : ℕ) :
    decode src srcend destend (fuel+k) s = decode src srcend destend fuel s := by
  induction fuel generalizing s with
  | zero => rw [decode_stop _ (by omega),decode_stop _ (by omega)]
  | succ fuel ih =>
    rw [Nat.add_right_comm]
    simp only [decode]
    split_ifs with hc
    · have hsp := items_invariant (inductive_sp src srcend destend (s.sp+1)) 8
          (s.fetch src).1.toNat (s.fetch src).2 le_rfl
      cases hi : items src srcend destend 8 (s.fetch src).1.toNat (s.fetch src).2 with
      | error e => rfl
      | ok t =>
        rw [hi] at hsp
        exact ih t (by simp only [final_ok] at hsp; omega)
    · rfl

end Invariants

end PageDumper
