import PageDumper.PglzEmit
import PageDumper.PglzMatch

/-! `pglz_compress`. One iteration of its loop emits the next item of a greedy parse that needs
neither the linked lists nor the arrays left by the previous call, and the whole run is decided
by the length of that parse's coding. -/
namespace PageDumper
open Memory Words Grouping LZ77

def INT_MAX : ℕ := 2147483647

structure PglzStrategy where
  minInputSize : ℤ
  maxInputSize : ℤ
  minCompRate : ℤ
  firstSuccessBy : ℤ
  matchSizeGood : ℤ
  matchSizeDrop : ℤ

def strategyDefaultData : PglzStrategy := ⟨32,INT_MAX,25,1024,128,10⟩
def strategyAlwaysData : PglzStrategy := ⟨0,INT_MAX,0,INT_MAX,128,6⟩

namespace PglzStrategy

def goodMatch (s : PglzStrategy) : ℕ :=
  if PGLZ_MAX_MATCH < s.matchSizeGood then PGLZ_MAX_MATCH
  else if s.matchSizeGood < 17 then 17 else s.matchSizeGood.toNat

def goodDrop (s : PglzStrategy) : ℕ :=
  if s.matchSizeDrop < 0 then 0 else if 100 < s.matchSizeDrop then 100 else s.matchSizeDrop.toNat

def needRate (s : PglzStrategy) : ℕ :=
  if s.minCompRate < 0 then 0 else if 99 < s.minCompRate then 99 else s.minCompRate.toNat

def resultMax (s : PglzStrategy) (slen : ℕ) : ℕ :=
  if INT_MAX/100 < slen then slen/100*(100-s.needRate) else slen*(100-s.needRate)/100

/-- The strategy forbids compression, or that of a source of this length. -/
def Forbids (s : PglzStrategy) (slen : ℕ) : Prop :=
  s.matchSizeGood ≤ 0 ∨ slen < s.minInputSize ∨ s.maxInputSize < slen

instance (s : PglzStrategy) (slen : ℕ) : Decidable (s.Forbids slen) :=
  inferInstanceAs (Decidable (_ ∨ _ ∨ _))

end PglzStrategy

structure Compressor where
  out : PglzOutput
  dp : ℕ
  foundMatch : Bool
  history : PglzHistory

section Loop

variable (source : ℕ → UInt8) (dend : ℕ) (strategy : PglzStrategy)

/-- `pglz_hist_add` and `dp++` for each of the given number of characters. -/
def addCovered : ℕ → Compressor → Compressor
  | 0, s => s
  | n+1, s => addCovered n { s with history := pglzHistAdd source dend s.history s.dp, dp := s.dp+1 }

def compressBody (s : Compressor) : Option Compressor :=
  match pglzFindMatch source dend s.history s.dp strategy.goodMatch strategy.goodDrop with
  | none => none
  | some (some (matchLen,matchOff)) =>
    some { addCovered source dend matchLen { s with out := pglzOutTag s.out matchLen matchOff } with
      foundMatch := true }
  | some none => some (addCovered source dend 1 { s with out := pglzOutLiteral s.out (source s.dp) })

/-- `while (dp < dend)`, and whether its end was reached. The first argument is fuel; nothing is
returned when it runs out. -/
def compressLoop : ℕ → Compressor → Option (Bool × Compressor)
  | 0, _ => none
  | fuel+1, s =>
    if s.dp < dend then
      if strategy.resultMax dend ≤ s.out.bp-8 then some (false,s)
      else if s.foundMatch = false ∧ strategy.firstSuccessBy ≤ (s.out.bp-8 : ℕ) then some (false,s)
      else (compressBody source dend strategy s).bind (compressLoop fuel)
    else some (true,s)

end Loop

def startOutput (slen : ℕ) (dest : ℕ → UInt8) : PglzOutput :=
  ⟨none,0,0,8,putLe32 dest 4 (UInt32.ofNat slen),[7,6,5,4]⟩

def Compressor.start (slen : ℕ) (dest : ℕ → UInt8) (entries : ℕ → PglzHistEntry) : Compressor :=
  ⟨startOutput slen dest,0,false,.start entries⟩

structure Compressed where
  success : Bool
  dest : ℕ → UInt8
  stores : List ℕ

/-- `pglz_compress`; no strategy is the null pointer, and `entries` is what the last call has left
in `hist_entries`. Every iteration advances, so one for each character is enough. -/
def pglzCompress (source : ℕ → UInt8) (slen : ℕ) (dest : ℕ → UInt8) (strategy : Option PglzStrategy)
    (entries : ℕ → PglzHistEntry) : Option Compressed :=
  let strategy := strategy.getD strategyDefaultData
  if strategy.Forbids slen then some ⟨false,dest,[]⟩
  else
    match compressLoop source slen strategy (slen+1) (.start slen dest entries) with
    | none => none
    | some (false,s) => some ⟨false,s.out.dest,s.out.stores⟩
    | some (true,s) =>
      let o := s.out.writeCtrl
      let resultSize := o.bp-8
      if strategy.resultMax slen ≤ resultSize then some ⟨false,o.dest,o.stores⟩
      else some ⟨true,putLe32 o.dest 0 ((UInt32.ofNat (resultSize+8) <<< 2) ||| 2),
        3::2::1::0::o.stores⟩

/-- Length and offset that a search of the recent positions gives at `dp`. -/
def bestMatch (source : ℕ → UInt8) (e : ℕ) (strategy : PglzStrategy) (dp : ℕ) : ℕ × ℕ :=
  search source e dp strategy.goodDrop (candidates source e dp (pglzHistIdx source dp e))
    strategy.goodMatch (0,0)

def nextItem (source : ℕ → UInt8) (e : ℕ) (strategy : PglzStrategy) (dp : ℕ) : Item UInt8 :=
  if 2 < (bestMatch source e strategy dp).1 then
    .backref (bestMatch source e strategy dp).2 (bestMatch source e strategy dp).1
  else .literal (source dp)

/-- The greedy parse of the source from `dp` on, in at most the given number of items. -/
def parse (source : ℕ → UInt8) (e : ℕ) (strategy : PglzStrategy) : ℕ → ℕ → List (Item UInt8)
  | 0, _ => []
  | n+1, dp =>
    if dp < e then
      nextItem source e strategy dp ::
        parse source e strategy n (dp+(nextItem source e strategy dp).size)
    else []

theorem Match.codable {source : ℕ → UInt8} {e input len off : ℕ} (h : Match source e input len off) :
    Codable (.backref off len) :=
  ⟨⟨h.offset.1,Nat.le_of_lt h.offset.2⟩,h.length⟩

section Parse

variable (source : ℕ → UInt8) {e : ℕ} (strategy : PglzStrategy)

theorem nextItem_spec {dp : ℕ} (hlt : dp < e) :
    Codable (nextItem source e strategy dp) ∧ ValidFrom dp [nextItem source e strategy dp] ∧
      dp+(nextItem source e strategy dp).size ≤ e ∧
      (nextItem source e strategy dp).emit (window source 0 dp) =
        window source 0 (dp+(nextItem source e strategy dp).size) := by
  unfold nextItem
  split
  · rename_i hlen
    have hm := search_match (Nat.le_of_lt hlt) hlen
    exact ⟨hm.codable,⟨hm.offset.1,hm.behind,trivial⟩,hm.inside,
      copyRun_window hm.offset.1 hm.behind hm.agrees⟩
  · refine ⟨trivial,trivial,hlt,?_⟩
    simp [Item.emit,Item.size,window_succ]

theorem parse_spec {n dp : ℕ} (hdp : dp ≤ e) (hn : e-dp ≤ n) :
    (∀ i ∈ parse source e strategy n dp, Codable i) ∧ ValidFrom dp (parse source e strategy n dp) ∧
      (parse source e strategy n dp).foldl Item.emit (window source 0 dp) = window source 0 e := by
  induction n generalizing dp with
  | zero =>
    obtain rfl : dp = e := by omega
    exact ⟨by simp [parse],trivial,rfl⟩
  | succ n ih =>
    rw [parse]
    by_cases hlt : dp < e
    · obtain ⟨hcod,hval,hin,hemit⟩ := nextItem_spec source strategy hlt
      obtain ⟨hcods,hvals,hspell⟩ := ih hin (by have := hcod.one_le_size; omega)
      rw [if_pos hlt]
      refine ⟨List.forall_mem_cons.mpr ⟨hcod,hcods⟩,?_,?_⟩
      · exact (validFrom_append dp [_] _).mpr ⟨hval,by simpa using hvals⟩
      · rw [List.foldl_cons,hemit]
        exact hspell
    · obtain rfl : dp = e := by omega
      rw [if_neg hlt]
      exact ⟨by simp,trivial,rfl⟩

def greedy (slen : ℕ) : PglzStream where
  items := parse source slen strategy (slen+1) 0
  codable := (parse_spec source strategy (Nat.zero_le slen) (by omega)).1
  valid := (parse_spec source strategy (Nat.zero_le slen) (by omega)).2.1

@[simp] theorem expansion_greedy (slen : ℕ) : (greedy source strategy slen).expansion = window source 0 slen :=
  (parse_spec source strategy (Nat.zero_le slen) (by omega)).2.2

end Parse

def outItem (o : PglzOutput) : Item UInt8 → PglzOutput
  | .literal b => pglzOutLiteral o b
  | .backref off len => pglzOutTag o len off

theorem Emitted.outItem {rawsize : UInt32} {items : List (Item UInt8)} {o : PglzOutput}
    (h : Emitted rawsize items o) {i : Item UInt8} (hc : Codable i) :
    Emitted rawsize (items ++ [i]) (outItem o i) := by
  cases i with
  | literal b => exact h.outLiteral b
  | backref off len => exact h.outTag hc

theorem Emitted.foldl {rawsize : UInt32} {items : List (Item UInt8)} {o : PglzOutput}
    (h : Emitted rawsize items o) {is : List (Item UInt8)} (hc : ∀ i ∈ is, Codable i) :
    Emitted rawsize (items ++ is) (is.foldl PageDumper.outItem o) := by
  induction is generalizing items o with
  | nil => simpa using h
  | cons i is ih =>
    obtain ⟨hi,his⟩ := List.forall_mem_cons.mp hc
    simpa using ih (h.outItem hi) his

/-- The two checks at the head of the loop, of the items emitted so far. -/
def GivesUp (strategy : PglzStrategy) (slen : ℕ) (items : List (Item UInt8)) : Prop :=
  strategy.resultMax slen ≤ (encode items).length ∨
    items.any Item.isBackref = false ∧ strategy.firstSuccessBy ≤ (encode items).length

instance (strategy : PglzStrategy) (slen : ℕ) (items : List (Item UInt8)) :
    Decidable (GivesUp strategy slen items) := inferInstanceAs (Decidable (_ ∨ _ ∧ _))

def emitWhile (strategy : PglzStrategy) (slen : ℕ) (items : List (Item UInt8)) :
    List (Item UInt8) → Bool × List (Item UInt8)
  | [] => (true,items)
  | i::is => if GivesUp strategy slen items then (false,items) else emitWhile strategy slen (items ++ [i]) is

section Progress

variable {source : ℕ → UInt8} {e : ℕ} {strategy : PglzStrategy} {o₀ : PglzOutput}
  {items : List (Item UInt8)} {s : Compressor}

theorem addCovered_spec (o : PglzOutput) (n : ℕ) (ht : Tracks source e s.dp s.history) :
    (addCovered source e n { s with out := o }).out = o ∧
      (addCovered source e n { s with out := o }).foundMatch = s.foundMatch ∧
      (addCovered source e n { s with out := o }).dp = s.dp+n ∧
      Tracks source e (s.dp+n) (addCovered source e n { s with out := o }).history := by
  induction n generalizing s with
  | zero => exact ⟨rfl,rfl,rfl,ht⟩
  | succ n ih =>
    have hdp : s.dp+(n+1) = s.dp+1+n := by omega
    rw [addCovered,hdp]
    exact ih (s := ⟨s.out,s.dp+1,s.foundMatch,pglzHistAdd source e s.history s.dp⟩) ht.histAdd

/-- After a whole number of iterations: these items are emitted and cover the source up to `dp`,
and its characters are in the history. -/
structure Progress (source : ℕ → UInt8) (e : ℕ) (o₀ : PglzOutput) (items : List (Item UInt8))
    (s : Compressor) : Prop where
  out : s.out = items.foldl outItem o₀
  history : Tracks source e s.dp s.history
  size : (items.map Item.size).sum = s.dp
  inside : s.dp ≤ e
  codable : ∀ i ∈ items, Codable i
  foundMatch : s.foundMatch = items.any Item.isBackref

theorem Progress.start (source : ℕ → UInt8) (slen : ℕ) (dest : ℕ → UInt8)
    (entries : ℕ → PglzHistEntry) :
    Progress source slen (startOutput slen dest) [] (.start slen dest entries) :=
  ⟨rfl,.start source slen entries,rfl,Nat.zero_le _,by simp,rfl⟩

theorem Progress.item (h : Progress source e o₀ items s) {i : Item UInt8} (hc : Codable i)
    (hin : s.dp+i.size ≤ e) {s' : Compressor} (hout : s'.out = outItem s.out i)
    (hdp : s'.dp = s.dp+i.size) (hist : Tracks source e (s.dp+i.size) s'.history)
    (hfound : s'.foundMatch = (s.foundMatch || i.isBackref)) :
    Progress source e o₀ (items ++ [i]) s' := by
  refine ⟨?_,hdp ▸ hist,?_,hdp ▸ hin,?_,?_⟩
  · rw [hout,h.out,List.foldl_append]
    rfl
  · rw [List.map_append,List.sum_append,h.size,hdp]
    rfl
  · intro j hj
    rcases List.mem_append.mp hj with hj | hj
    · exact h.codable j hj
    · rw [List.mem_singleton.mp hj]
      exact hc
  · rw [hfound,h.foundMatch,List.any_append]
    simp

variable (strategy) in
/-- One iteration emits the next item of the parse. -/
theorem compressBody_spec (h : Progress source e o₀ items s) (hlt : s.dp < e) :
    ∃ s', compressBody source e strategy s = some s' ∧
      s'.dp = s.dp+(nextItem source e strategy s.dp).size ∧
      Progress source e o₀ (items ++ [nextItem source e strategy s.dp]) s' := by
  have hfind : pglzFindMatch source e s.history s.dp strategy.goodMatch strategy.goodDrop =
      some (if 2 < (bestMatch source e strategy s.dp).1 then some (bestMatch source e strategy s.dp)
        else none) := pglzFindMatch_eq h.history h.inside _ _
  obtain ⟨hcod,-,hin,-⟩ := nextItem_spec source strategy hlt
  rw [compressBody,hfind]
  unfold nextItem at hcod hin ⊢
  split_ifs at hcod hin ⊢
  · obtain ⟨hout,-,hdp,hist⟩ := addCovered_spec (pglzOutTag s.out (bestMatch source e strategy s.dp).1
      (bestMatch source e strategy s.dp).2) (bestMatch source e strategy s.dp).1 h.history
    refine ⟨_,rfl,hdp,h.item hcod hin hout hdp hist ?_⟩
    simp [Item.isBackref]
  · obtain ⟨hout,hfound,hdp,hist⟩ := addCovered_spec (pglzOutLiteral s.out (source s.dp)) 1 h.history
    refine ⟨_,rfl,hdp,h.item hcod hin hout hdp hist ?_⟩
    rw [hfound]
    simp [Item.isBackref]

theorem Progress.checks (h : Progress source e o₀ items s) {rawsize : UInt32}
    (h₀ : Emitted rawsize [] o₀) {α : Type} (x y : α) :
    (if strategy.resultMax e ≤ s.out.bp-8 then x
      else if s.foundMatch = false ∧ strategy.firstSuccessBy ≤ (s.out.bp-8 : ℕ) then x else y) =
      if GivesUp strategy e items then x else y := by
  have hbp : s.out.bp-8 = (encode items).length := by
    rw [h.out,((h₀.foldl h.codable).writeCtrl).2.1,List.nil_append]
    omega
  rw [hbp,h.foundMatch]
  by_cases hmax : strategy.resultMax e ≤ (encode items).length
  · rw [if_pos hmax,if_pos (.inl hmax)]
  · rw [if_neg hmax]
    by_cases hno : items.any Item.isBackref = false ∧ strategy.firstSuccessBy ≤ (encode items).length
    · rw [if_pos hno,if_pos (.inr hno)]
    · rw [if_neg hno,if_neg fun hg => hg.elim hmax hno]

variable (strategy) in
theorem compressLoop_spec {rawsize : UInt32} (h₀ : Emitted rawsize [] o₀) {fuel : ℕ}
    (h : Progress source e o₀ items s) (hfuel : e-s.dp < fuel) :
    ∃ s', compressLoop source e strategy fuel s =
        some ((emitWhile strategy e items (parse source e strategy fuel s.dp)).1,s') ∧
      Progress source e o₀ (emitWhile strategy e items (parse source e strategy fuel s.dp)).2 s' := by
  induction fuel generalizing items s with
  | zero => omega
  | succ fuel ih =>
    rw [compressLoop,parse]
    by_cases hlt : s.dp < e
    · rw [if_pos hlt,if_pos hlt,h.checks h₀,emitWhile]
      split
      · exact ⟨s,rfl,h⟩
      · obtain ⟨s',hs',hdp,h'⟩ := compressBody_spec strategy h hlt
        have hpos := (h'.codable (nextItem source e strategy s.dp) (by simp)).one_le_size
        rw [hs',← hdp]
        exact ih h' (by omega)
    · rw [if_neg hlt,if_neg hlt]
      exact ⟨s,rfl,h⟩

end Progress

theorem emitted_startOutput (slen : ℕ) (dest : ℕ → UInt8) :
    Emitted (UInt32.ofNat slen) [] (startOutput slen dest) := by
  refine .inl ⟨rfl,rfl,rfl,rfl,?_,by simp [startOutput]⟩
  rw [Holds,length_leBytes]
  exact window_blit dest 4 4 _

/-- The states at the head of the loop in a run of `pglz_compress`. -/
inductive Compressor.Reached (source : ℕ → UInt8) (slen : ℕ) (dest : ℕ → UInt8) (strategy : PglzStrategy)
    (entries : ℕ → PglzHistEntry) : Compressor → Prop
  | start : Reached source slen dest strategy entries (.start slen dest entries)
  | step {s s' : Compressor} (h : Reached source slen dest strategy entries s) (hlt : s.dp < slen)
      (hs : compressBody source slen strategy s = some s') : Reached source slen dest strategy entries s'

section Reached

variable {source : ℕ → UInt8} {slen : ℕ} {dest : ℕ → UInt8} {strategy : PglzStrategy}
  {entries : ℕ → PglzHistEntry} {s : Compressor}

theorem Compressor.Reached.progress (h : Reached source slen dest strategy entries s) :
    ∃ items, Progress source slen (startOutput slen dest) items s := by
  induction h with
  | start => exact ⟨[],.start source slen dest entries⟩
  | step _ hlt hs ih =>
    obtain ⟨items,hp⟩ := ih
    obtain ⟨s'',hs'',-,hp'⟩ := compressBody_spec strategy hp hlt
    rw [hs] at hs''
    exact ⟨_,Option.some.inj hs'' ▸ hp'⟩

def repeating : ℕ → UInt8 := fun i => UInt8.ofNat (0x61+i%3)

theorem reached_repeating : ∃ s : Compressor,
    s.Reached repeating 8 (fun _ => 0) strategyAlwaysData (fun i => ⟨some (i+1),none,7,i⟩) ∧ s.dp = 3 := by
  have hrun : (((compressBody repeating 8 strategyAlwaysData (.start 8 (fun _ => 0)
      fun i => ⟨some (i+1),none,7,i⟩)).filter (·.dp == 1)).bind fun s =>
      ((compressBody repeating 8 strategyAlwaysData s).filter (·.dp == 2)).bind fun s =>
      (compressBody repeating 8 strategyAlwaysData s).filter (·.dp == 3)).isSome := by decide +kernel
  obtain ⟨s₃,hs₃⟩ := Option.isSome_iff_exists.mp hrun
  simp only [Option.bind_eq_some_iff,Option.filter_eq_some_iff,beq_iff_eq] at hs₃
  obtain ⟨s₁,⟨h₁,hd₁⟩,s₂,⟨h₂,hd₂⟩,h₃,hd₃⟩ := hs₃
  exact ⟨s₃,.step (.step (.step .start (by decide) h₁) (by omega) h₂) (by omega) h₃,hd₃⟩

/-- In every state of a run the chains hold the last 4096 positions, each on the chain of its hash
with the nearest first, whatever the previous call has left in the entries. -/
theorem reached_tracks (h : s.Reached source slen dest strategy entries) :
    Tracks source slen s.dp s.history := by
  obtain ⟨items,hp⟩ := h.progress
  exact hp.history

theorem reached_tracks_repeating : ∃ s : Compressor, s.dp = 3 ∧ Tracks repeating 8 3 s.history := by
  obtain ⟨s,h,hdp⟩ := reached_repeating
  exact ⟨s,hdp,hdp ▸ reached_tracks h⟩

/-- In every state of a run the walk of a chain with its `memcmp` shortcut reports what comparing
with the positions of the same hash character by character reports. -/
theorem reached_pglzFindMatch (h : s.Reached source slen dest strategy entries) (goodMatch goodDrop : ℕ) :
    let best := search source slen s.dp goodDrop
      (candidates source slen s.dp (pglzHistIdx source s.dp slen)) goodMatch (0,0)
    pglzFindMatch source slen s.history s.dp goodMatch goodDrop =
      some (if 2 < best.1 then some best else none) := by
  obtain ⟨items,hp⟩ := h.progress
  exact pglzFindMatch_eq hp.history hp.inside goodMatch goodDrop

theorem reached_pglzFindMatch_repeating : ∃ s : Compressor, s.dp = 3 ∧
    pglzFindMatch repeating 8 s.history 3 128 6 = some (some (5,3)) := by
  obtain ⟨s,h,hdp⟩ := reached_repeating
  refine ⟨s,hdp,?_⟩
  have hfind := reached_pglzFindMatch h 128 6
  rw [hdp] at hfind
  rw [hfind]
  decide +kernel

/-- In every state of a run a match that is reported is one; and while the good match is lowered
by a third at most, none is reported only where every position of the same hash in reach agrees
in less than three characters. -/
theorem reached_pglzFindMatch_iff (h : s.Reached source slen dest strategy entries)
    (goodMatch goodDrop : ℕ) :
    (∀ len off, pglzFindMatch source slen s.history s.dp goodMatch goodDrop = some (some (len,off)) →
      Match source slen s.dp len off) ∧
    (3 ≤ goodMatch → goodDrop ≤ 33 →
      (pglzFindMatch source slen s.history s.dp goodMatch goodDrop = some none ↔
        ∀ p < s.dp, s.dp-p < 0x0fff → pglzHistIdx source p slen = pglzHistIdx source s.dp slen →
          commonLen source slen s.dp p < 3)) := by
  obtain ⟨items,hp⟩ := h.progress
  exact ⟨fun len off hm => pglzFindMatch_sound hp.history hp.inside hm,
    fun hg hd => pglzFindMatch_eq_none_iff hp.history hp.inside hg hd⟩

theorem reached_pglzFindMatch_iff_repeating : ∃ s : Compressor, s.dp = 3 ∧
    pglzFindMatch repeating 8 s.history 3 128 6 ≠ some none := by
  obtain ⟨s,h,hdp⟩ := reached_repeating
  have hiff := (reached_pglzFindMatch_iff h 128 6).2 (by decide) (by decide)
  rw [hdp] at hiff
  refine ⟨s,hdp,fun hnone => ?_⟩
  exact absurd (hiff.mp hnone 0 (by decide) (by decide) (by decide +kernel)) (by decide +kernel)

end Reached

/-- The compressor without hash chains: emit the greedy parse while the checks pass. -/
def plainCompress (source : ℕ → UInt8) (slen : ℕ) (dest : ℕ → UInt8) (strategy : PglzStrategy) :
    Compressed :=
  if strategy.Forbids slen then ⟨false,dest,[]⟩
  else
    let run := emitWhile strategy slen [] (greedy source strategy slen).items
    let o := run.2.foldl outItem (startOutput slen dest)
    if run.1 then
      if strategy.resultMax slen ≤ (encode run.2).length then ⟨false,o.writeCtrl.dest,o.writeCtrl.stores⟩
      else ⟨true,putLe32 o.writeCtrl.dest 0 ((UInt32.ofNat ((encode run.2).length+8) <<< 2) ||| 2),
        3::2::1::0::o.writeCtrl.stores⟩
    else ⟨false,o.dest,o.stores⟩

/-- `pglz_compress` is the compressor without hash chains, whatever the previous call has left in
the history. -/
theorem pglzCompress_eq (source : ℕ → UInt8) (slen : ℕ) (dest : ℕ → UInt8)
    (strategy : Option PglzStrategy) (entries : ℕ → PglzHistEntry) :
    pglzCompress source slen dest strategy entries =
      some (plainCompress source slen dest (strategy.getD strategyDefaultData)) := by
  unfold pglzCompress plainCompress
  generalize strategy.getD strategyDefaultData = strategy
  have h₀ := emitted_startOutput slen dest
  obtain ⟨s,hs,h⟩ := compressLoop_spec strategy h₀ (.start source slen dest entries) (Nat.lt_succ_self slen)
  change Progress source slen (startOutput slen dest)
    (emitWhile strategy slen [] (greedy source strategy slen).items).2 s at h
  change compressLoop source slen strategy (slen+1) (.start slen dest entries) =
    some ((emitWhile strategy slen [] (greedy source strategy slen).items).1,s) at hs
  have hbp : s.out.writeCtrl.bp-8 =
      (encode (emitWhile strategy slen [] (greedy source strategy slen).items).2).length := by
    rw [PglzOutput.bp_writeCtrl,h.out,((h₀.foldl h.codable).writeCtrl).2.1,List.nil_append]
    omega
  simp only [hs,← h.out]
  by_cases hf : strategy.Forbids slen
  · simp only [if_pos hf]
  · simp only [if_neg hf]
    cases (emitWhile strategy slen [] (greedy source strategy slen).items).1 with
    | false => rfl
    | true =>
      simp only [hbp,if_true]
      exact (apply_ite some _ _ _).symm

end PageDumper
