import PageDumper.PglzFormat

/-! The output side of `pglz_compress`: the macros `pglz_out_ctrl`, `pglz_out_literal` and
`pglz_out_tag`. A control byte is reserved in front of its items and stored only when the next
one is due; `Emitted` says what the output holds in between. -/
namespace PageDumper
open Memory Words Grouping LZ77

/-- `ctrlp`, `ctrlb`, `ctrl` and `bp` with the buffer they write to, as offsets from `dest`. At
first `ctrlp` points to a local variable. The stores are logged, newest first. -/
structure PglzOutput where
  ctrlp : Option ℕ
  ctrlb : UInt8
  ctrl : UInt8
  bp : ℕ
  dest : ℕ → UInt8
  stores : List ℕ

namespace PglzOutput

def store (o : PglzOutput) (a : ℕ) (b : UInt8) : PglzOutput :=
  { o with dest := Function.update o.dest a b, stores := a::o.stores }

def put (o : PglzOutput) (b : UInt8) : PglzOutput := { o.store o.bp b with bp := o.bp+1 }

def writeCtrl (o : PglzOutput) : PglzOutput :=
  match o.ctrlp with
  | none => o
  | some p => o.store p o.ctrlb

end PglzOutput

def pglzOutCtrl (o : PglzOutput) : PglzOutput :=
  if o.ctrl &&& 0xff = 0 then
    { o.writeCtrl with ctrlp := some o.bp, bp := o.bp+1, ctrlb := 0, ctrl := 1 }
  else o

def pglzOutLiteral (o : PglzOutput) (byte : UInt8) : PglzOutput :=
  let o := (pglzOutCtrl o).put byte
  { o with ctrl := o.ctrl <<< 1 }

def pglzOutTag (o : PglzOutput) (len off : ℕ) : PglzOutput :=
  let o := pglzOutCtrl o
  let o := { o with ctrlb := o.ctrlb ||| o.ctrl, ctrl := o.ctrl <<< 1 }
  if 17 < len then
    ((o.put (UInt8.ofNat (((off &&& 0xf00) >>> 4) ||| 0x0f))).put (UInt8.ofNat (off &&& 0xff))).put
      (UInt8.ofNat (len-18))
  else (o.put (UInt8.ofNat (((off &&& 0xf00) >>> 4) ||| (len-3)))).put (UInt8.ofNat (off &&& 0xff))

namespace PglzOutput

def putAll (o : PglzOutput) (l : List UInt8) : PglzOutput := l.foldl put o

@[simp] theorem putAll_cons (o : PglzOutput) (b : UInt8) (l : List UInt8) :
    o.putAll (b::l) = (o.put b).putAll l := rfl

@[simp] theorem ctrlp_putAll (o : PglzOutput) (l : List UInt8) : (o.putAll l).ctrlp = o.ctrlp := by
  induction l generalizing o with
  | nil => rfl
  | cons b l ih => exact ih (o.put b)

@[simp] theorem bp_putAll (o : PglzOutput) (l : List UInt8) :
    (o.putAll l).bp = o.bp+l.length := by
  induction l generalizing o with
  | nil => rfl
  | cons b l ih =>
    rw [putAll_cons,ih,List.length_cons]
    exact Nat.add_right_comm o.bp 1 l.length

theorem dest_putAll_of_lt (o : PglzOutput) (l : List UInt8) {a : ℕ} (h : a < o.bp) :
    (o.putAll l).dest a = o.dest a := by
  induction l generalizing o with
  | nil => rfl
  | cons b l ih =>
    rw [putAll_cons,ih (o.put b) (Nat.lt_succ_of_lt h)]
    exact Function.update_of_ne (Nat.ne_of_lt h) b o.dest

theorem holds_putAll (o : PglzOutput) (l : List UInt8) : Holds (o.putAll l).dest o.bp l := by
  induction l generalizing o with
  | nil => exact holds_nil _ _
  | cons b l ih =>
    refine holds_cons.mpr ⟨?_,ih (o.put b)⟩
    rw [putAll_cons,dest_putAll_of_lt _ _ (Nat.lt_succ_self o.bp)]
    exact Function.update_self o.bp b o.dest

theorem mem_stores_putAll (o : PglzOutput) (l : List UInt8) {a : ℕ} (h : a ∈ (o.putAll l).stores) :
    a ∈ o.stores ∨ o.bp ≤ a ∧ a < o.bp+l.length := by
  induction l generalizing o with
  | nil => exact .inl h
  | cons b l ih =>
    rw [List.length_cons]
    rcases ih (o.put b) h with h | ⟨h₁,h₂⟩
    · rcases List.mem_cons.mp h with h | h
      · exact .inr ⟨h.ge,by omega⟩
      · exact .inl h
    · simp only [put] at h₁ h₂
      exact .inr ⟨by omega,by omega⟩

end PglzOutput

/-- Only the cells in the log differ from the buffer at the start. -/
def Logged (dest : ℕ → UInt8) (o : PglzOutput) : Prop := ∀ a, a ∉ o.stores → o.dest a = dest a

theorem Logged.store {dest : ℕ → UInt8} {o : PglzOutput} (h : Logged dest o) (a : ℕ) (b : UInt8) :
    Logged dest (o.store a b) := by
  intro c hc
  obtain ⟨hne,hc⟩ := not_or.mp (mt List.mem_cons.mpr hc)
  exact (Function.update_of_ne hne b o.dest).trans (h c hc)

theorem Logged.put {dest : ℕ → UInt8} {o : PglzOutput} (h : Logged dest o) (b : UInt8) :
    Logged dest (o.put b) := h.store o.bp b

theorem Logged.writeCtrl {dest : ℕ → UInt8} {o : PglzOutput} (h : Logged dest o) :
    Logged dest o.writeCtrl := by
  rw [PglzOutput.writeCtrl]
  split
  · exact h
  · exact h.store _ _

theorem Logged.outCtrl {dest : ℕ → UInt8} {o : PglzOutput} (h : Logged dest o) :
    Logged dest (pglzOutCtrl o) := by
  rw [pglzOutCtrl]
  split
  · exact h.writeCtrl
  · exact h

theorem Logged.outLiteral {dest : ℕ → UInt8} {o : PglzOutput} (h : Logged dest o) (b : UInt8) :
    Logged dest (pglzOutLiteral o b) := h.outCtrl.put b

theorem Logged.outTag {dest : ℕ → UInt8} {o : PglzOutput} (h : Logged dest o) (len off : ℕ) :
    Logged dest (pglzOutTag o len off) := by
  have hctrl : Logged dest { pglzOutCtrl o with
      ctrlb := (pglzOutCtrl o).ctrlb ||| (pglzOutCtrl o).ctrl, ctrl := (pglzOutCtrl o).ctrl <<< 1 } := h.outCtrl
  unfold pglzOutTag
  split
  · exact ((hctrl.put _).put _).put _
  · exact (hctrl.put _).put _

@[simp] theorem PglzOutput.bp_writeCtrl (o : PglzOutput) : o.writeCtrl.bp = o.bp := by
  rw [writeCtrl]
  split <;> rfl

theorem tag_high {off l : ℕ} (ho : off < 4096) (hl : l < 16) :
    ((off &&& 0xf00) >>> 4) ||| l = 16*(off/256)+l := by
  have hh : off/256 < 16 := by omega
  have hoff : off >>> 4 = 16*(off/256)+off%256/16 := by
    rw [Nat.shiftRight_eq_div_pow]
    omega
  have hmask : ∀ h < 16, ∀ t < 16, (16*h+t) &&& 0xf0 = 16*h := by decide
  have hor : ∀ h < 16, ∀ t < 16, (16*h) ||| t = 16*h+t := by decide
  rw [Nat.shiftRight_and_distrib,hoff]
  simp only [Nat.reduceShiftRight]
  rw [hmask _ hh _ (by omega),hor _ hh _ hl]

theorem pglzOutTag_eq (o : PglzOutput) {len off : ℕ} (hc : Codable (.backref off len)) :
    pglzOutTag o len off =
      { (pglzOutCtrl o).putAll (encodeItem (.backref off len)) with
        ctrlb := (pglzOutCtrl o).ctrlb ||| (pglzOutCtrl o).ctrl, ctrl := (pglzOutCtrl o).ctrl <<< 1 } := by
  obtain ⟨⟨-,hoff⟩,hlen,-⟩ := hc
  have hlow : off &&& 0xff = off%256 := Nat.and_two_pow_sub_one_eq_mod off 8
  have hbyte : ∀ l < 16, ((off &&& 0xf00) >>> 4) ||| l = 16*(off/256)+l := fun l hl =>
    tag_high (by omega) hl
  by_cases h : len ≤ 17
  · simp only [pglzOutTag,encodeItem,if_pos h,if_neg (Nat.not_lt.mpr h),hlow,hbyte (len-3) (by omega)]
    rfl
  · simp only [pglzOutTag,encodeItem,if_neg h,if_pos (Nat.lt_of_not_le h),hlow,hbyte 0x0f (by omega)]
    rfl

structure Fresh (rawsize : UInt32) (o : PglzOutput) : Prop where
  ctrlp : o.ctrlp = none
  ctrl : o.ctrl = 0
  bp : o.bp = 8
  header : Holds o.dest 4 (leBytes rawsize)
  stores : ∀ a ∈ o.stores, 4 ≤ a ∧ a < 8

/-- The groups `full` are written; the control byte of the group `g` is not written yet. -/
structure OpenGroup (rawsize : UInt32) (full g : List (Item UInt8)) (o : PglzOutput) : Prop where
  whole : 8 ∣ full.length
  length : g.length ≤ 8
  ctrlp : o.ctrlp = some (8+(encode full).length)
  ctrlb : o.ctrlb = UInt8.ofNat (controlBits g)
  ctrl : o.ctrl = UInt8.ofNat (2^g.length)
  bp : o.bp = 8+(encode full).length+1+(g.flatMap encodeItem).length
  groups : Holds o.dest 4 (leBytes rawsize ++ encode full)
  items : Holds o.dest (8+(encode full).length+1) (g.flatMap encodeItem)
  stores : ∀ a ∈ o.stores, 4 ≤ a ∧ a < o.bp

def Emitted (rawsize : UInt32) (items : List (Item UInt8)) (o : PglzOutput) : Prop :=
  items = [] ∧ Fresh rawsize o ∨
    ∃ full g, g ≠ [] ∧ items = full ++ g ∧ OpenGroup rawsize full g o

section Emitted

variable {rawsize : UInt32} {full g : List (Item UInt8)} {o : PglzOutput}

theorem ctrl_full {n : ℕ} (h : n ≤ 8) : UInt8.ofNat (2^n) &&& 0xff = 0 ↔ n = 8 := by
  have hall : ∀ n < 9, UInt8.ofNat (2^n) &&& 0xff = 0 ↔ n = 8 := by decide
  exact hall n (by omega)

theorem ctrl_next {n : ℕ} (h : n < 8) : UInt8.ofNat (2^n) <<< 1 = UInt8.ofNat (2^(n+1)) := by
  have hall : ∀ n < 8, UInt8.ofNat (2^n) <<< 1 = UInt8.ofNat (2^(n+1)) := by decide
  exact hall n h

theorem OpenGroup.writeCtrl (h : OpenGroup rawsize full g o) (hne : g ≠ []) :
    Holds o.writeCtrl.dest 4 (leBytes rawsize ++ encode (full ++ g)) ∧
      o.bp = 8+(encode (full ++ g)).length ∧ ∀ a ∈ o.writeCtrl.stores, 4 ≤ a ∧ a < o.bp := by
  have hbp := h.bp
  rw [PglzOutput.writeCtrl,h.ctrlp,encode_append h.whole,encode_group hne h.length]
  refine ⟨?_,?_,fun a ha => ?_⟩
  · rw [← List.append_assoc]
    have hbase : 4+(leBytes rawsize ++ encode full).length = 8+(encode full).length := by
      rw [List.length_append,length_leBytes]
      omega
    refine holds_append.mpr ⟨h.groups.congr fun i hi => ?_,?_⟩
    · exact (Function.update_of_ne (by omega) _ _).symm
    · rw [hbase,encodeGroup,holds_cons]
      refine ⟨(Function.update_self ..).trans h.ctrlb,h.items.congr fun i _ => ?_⟩
      exact (Function.update_of_ne (by omega) _ _).symm
  · rw [List.length_append,encodeGroup,List.length_cons]
    omega
  · rcases List.mem_cons.mp ha with rfl | ha
    · omega
    · exact h.stores a ha

/-- The control byte of the group that the next item belongs to is at hand. -/
theorem Emitted.outCtrl {items : List (Item UInt8)} (h : Emitted rawsize items o) :
    ∃ full g, g.length < 8 ∧ items = full ++ g ∧ OpenGroup rawsize full g (pglzOutCtrl o) := by
  rcases h with ⟨rfl,h⟩ | ⟨full,g,hne,rfl,h⟩
  · refine ⟨[],[],by simp,rfl,?_⟩
    have hdummy : o.writeCtrl = o := by rw [PglzOutput.writeCtrl,h.ctrlp]
    rw [pglzOutCtrl,if_pos (by rw [h.ctrl]; rfl),hdummy]
    refine ⟨dvd_zero _,by simp,by simp [h.bp,encode],rfl,rfl,by simp [h.bp,encode],?_,holds_nil _ _,?_⟩
    · simpa [encode] using h.header
    · intro a ha
      have := h.stores a ha
      simp only [h.bp]
      omega
  · by_cases hg : g.length = 8
    · refine ⟨full ++ g,[],by simp,by simp,?_⟩
      obtain ⟨hdest,hbp,hst⟩ := h.writeCtrl hne
      rw [pglzOutCtrl,h.ctrl,if_pos ((ctrl_full h.length).mpr hg)]
      refine ⟨?_,by simp,?_,rfl,rfl,?_,hdest,holds_nil _ _,fun a ha => ?_⟩
      · rw [List.length_append,hg]
        exact Nat.dvd_add h.whole (dvd_refl 8)
      · rw [hbp]
      · simp [hbp]
      · have := hst a ha
        simp only
        omega
    · refine ⟨full,g,Nat.lt_of_le_of_ne h.length hg,rfl,?_⟩
      rw [pglzOutCtrl,h.ctrl,if_neg (mt (ctrl_full h.length).mp hg)]
      exact h

theorem OpenGroup.put (h : OpenGroup rawsize full g o) (hg : g.length < 8) (i : Item UInt8)
    {ctrlb : UInt8} (hb : ctrlb = UInt8.ofNat (controlBits (g ++ [i]))) :
    OpenGroup rawsize full (g ++ [i])
      { o.putAll (encodeItem i) with ctrlb := ctrlb, ctrl := o.ctrl <<< 1 } := by
  have hbp := h.bp
  refine ⟨h.whole,by simp; omega,?_,hb,?_,?_,?_,?_,fun a ha => ?_⟩
  · rw [PglzOutput.ctrlp_putAll,h.ctrlp]
  · rw [h.ctrl,List.length_append,List.length_singleton]
    exact ctrl_next hg
  · simp only [PglzOutput.bp_putAll,List.flatMap_append,List.length_append,List.flatMap_singleton]
    omega
  · refine h.groups.congr fun j hj => ?_
    rw [List.length_append,length_leBytes] at hj
    exact (PglzOutput.dest_putAll_of_lt o _ (by omega)).symm
  · rw [List.flatMap_append,List.flatMap_singleton,holds_append,← hbp]
    refine ⟨h.items.congr fun j hj => ?_,PglzOutput.holds_putAll o _⟩
    exact (PglzOutput.dest_putAll_of_lt o _ (by omega)).symm
  · simp only [PglzOutput.bp_putAll]
    rcases PglzOutput.mem_stores_putAll o _ ha with ha | ha
    · have := h.stores a ha
      omega
    · omega

theorem Emitted.outLiteral {items : List (Item UInt8)} (h : Emitted rawsize items o) (b : UInt8) :
    Emitted rawsize (items ++ [.literal b]) (pglzOutLiteral o b) := by
  obtain ⟨full,g,hg,rfl,hopen⟩ := h.outCtrl
  refine .inr ⟨full,g ++ [.literal b],by simp,by simp,hopen.put hg (.literal b) ?_⟩
  rw [controlBits_concat]
  exact hopen.ctrlb

theorem Emitted.outTag {items : List (Item UInt8)} (h : Emitted rawsize items o) {len off : ℕ}
    (hc : Codable (.backref off len)) :
    Emitted rawsize (items ++ [.backref off len]) (pglzOutTag o len off) := by
  obtain ⟨full,g,hg,rfl,hopen⟩ := h.outCtrl
  have hbit : UInt8.ofNat (controlBits g) ||| UInt8.ofNat (2^g.length) =
      UInt8.ofNat (controlBits (g ++ [.backref off len])) := by
    have hsum := Nat.two_pow_add_eq_or_of_lt (controlBits_lt g) 1
    rw [Nat.mul_one] at hsum
    rw [controlBits_concat,show controlBits [Item.backref off len] = 1 from rfl,Nat.mul_one,
      ← UInt8.ofNat_or,Nat.or_comm,← hsum,Nat.add_comm]
  refine .inr ⟨full,g ++ [.backref off len],by simp,by simp,?_⟩
  rw [pglzOutTag_eq o hc]
  exact hopen.put hg (.backref off len) (by rw [hopen.ctrlb,hopen.ctrl,hbit])

theorem Emitted.writeCtrl {items : List (Item UInt8)} (h : Emitted rawsize items o) :
    Holds o.writeCtrl.dest 4 (leBytes rawsize ++ encode items) ∧ o.bp = 8+(encode items).length ∧
      ∀ a ∈ o.writeCtrl.stores, 4 ≤ a ∧ a < o.bp := by
  rcases h with ⟨rfl,h⟩ | ⟨full,g,hne,rfl,h⟩
  · rw [PglzOutput.writeCtrl,h.ctrlp]
    refine ⟨by simpa [encode] using h.header,by simp [h.bp,encode],fun a ha => ?_⟩
    exact h.bp.symm ▸ h.stores a ha
  · exact h.writeCtrl hne

theorem Emitted.stores {items : List (Item UInt8)} (h : Emitted rawsize items o) :
    ∀ a ∈ o.stores, 4 ≤ a ∧ a < o.bp := by
  rcases h with ⟨-,h⟩ | ⟨full,g,-,-,h⟩
  · exact h.bp.symm ▸ h.stores
  · exact h.stores

theorem length_encode_concat_le (items : List (Item UInt8)) (i : Item UInt8) :
    (encode (items ++ [i])).length ≤ (encode items).length+1+(encodeItem i).length := by
  simp only [length_encode,List.flatMap_append,List.flatMap_singleton,List.length_append,
    List.length_singleton]
  omega

end Emitted

end PageDumper
