import PageDumper.PglzCompress

/-! Whole runs of `pglz_compress`: when it succeeds, what it writes and where, what it leaves as
a literal, and what its result depends on. -/
namespace PageDumper
open Memory Words Grouping LZ77

section Run

variable {strategy : PglzStrategy} {slen : ℕ}

theorem resultMax_le (strategy : PglzStrategy) (slen : ℕ) : strategy.resultMax slen ≤ slen := by
  have hrate : 100-strategy.needRate ≤ 100 := Nat.sub_le _ _
  unfold PglzStrategy.resultMax
  split
  · have hmul := Nat.mul_le_mul_left (slen/100) hrate
    omega
  · have hmul := Nat.mul_le_mul_left slen hrate
    omega

theorem emitWhile_eq_true_iff (items is : List (Item UInt8)) :
    (emitWhile strategy slen items is).1 = true ↔
      ∀ q i r, is = q ++ i::r → ¬GivesUp strategy slen (items ++ q) := by
  induction is generalizing items with
  | nil => simp [emitWhile]
  | cons j is ih =>
    rw [emitWhile]
    split
    · rename_i hg
      simp only [Bool.false_eq_true,false_iff,not_forall,not_not]
      exact ⟨[],j,is,rfl,by simpa using hg⟩
    · rename_i hg
      rw [ih]
      constructor
      · intro h q i r hq
        rcases List.cons_eq_append_iff.mp hq with ⟨rfl,-⟩ | ⟨q',rfl,hq'⟩
        · simpa using hg
        · simpa using h q' i r hq'
      · intro h q i r hq
        simpa using h (j::q) i r (by rw [hq,List.cons_append])

theorem emitWhile_snd_of_true {items is : List (Item UInt8)}
    (h : (emitWhile strategy slen items is).1 = true) :
    (emitWhile strategy slen items is).2 = items ++ is := by
  induction is generalizing items with
  | nil => simp [emitWhile]
  | cons j is ih =>
    rw [emitWhile] at h ⊢
    split at h
    · simp at h
    · rename_i hg
      rw [if_neg hg,ih h,List.append_assoc]
      rfl

theorem emitWhile_snd_split (items is : List (Item UInt8)) :
    ∃ q r, is = q ++ r ∧ (emitWhile strategy slen items is).2 = items ++ q := by
  induction is generalizing items with
  | nil => exact ⟨[],[],rfl,by simp [emitWhile]⟩
  | cons j is ih =>
    rw [emitWhile]
    split
    · exact ⟨[],j::is,rfl,by simp⟩
    · obtain ⟨q,r,rfl,hq⟩ := ih (items ++ [j])
      exact ⟨j::q,r,rfl,by rw [hq]; simp⟩

theorem length_emitWhile_le {items is : List (Item UInt8)} (h : (encode items).length ≤ slen+3) :
    (encode (emitWhile strategy slen items is).2).length ≤ slen+3 := by
  induction is generalizing items with
  | nil => exact h
  | cons j is ih =>
    rw [emitWhile]
    split
    · exact h
    · rename_i hg
      have hmax : (encode items).length < strategy.resultMax slen := Nat.lt_of_not_le fun hle => hg (.inl hle)
      have hle := resultMax_le strategy slen
      have hstep := length_encode_concat_le items j
      have hitem := length_encodeItem_le j
      exact ih (by omega)

theorem encode_prefix_le (q r : List (Item UInt8)) : (encode q).length ≤ (encode (q ++ r)).length := by
  rw [length_encode,length_encode,List.flatMap_append,List.length_append,List.length_append]
  omega

end Run

theorem plainCompress_success {source : ℕ → UInt8} {slen : ℕ} {dest : ℕ → UInt8}
    {strategy : PglzStrategy} (h : (plainCompress source slen dest strategy).success = true) :
    ¬strategy.Forbids slen ∧
      (emitWhile strategy slen [] (greedy source strategy slen).items).1 = true ∧
      (greedy source strategy slen).bytes.length < strategy.resultMax slen ∧
      (plainCompress source slen dest strategy).dest =
        putLe32 (((greedy source strategy slen).items.foldl outItem (startOutput slen dest)).writeCtrl.dest) 0
          ((UInt32.ofNat ((greedy source strategy slen).bytes.length+8) <<< 2) ||| 2) := by
  unfold plainCompress at h ⊢
  split at h
  · simp at h
  · rename_i hf
    simp only at h
    split at h
    · rename_i hrun
      have hall := emitWhile_snd_of_true hrun
      rw [List.nil_append] at hall
      split at h
      · simp at h
      · rename_i hmax
        rw [hall] at hmax
        refine ⟨hf,hrun,Nat.lt_of_not_le hmax,?_⟩
        simp only [if_neg hf,if_pos hrun,hall,if_neg hmax]
        rfl
    · simp at h

theorem plainCompress_success_of {source : ℕ → UInt8} {slen : ℕ} (dest : ℕ → UInt8)
    {strategy : PglzStrategy} (hf : ¬strategy.Forbids slen)
    (hrun : (emitWhile strategy slen [] (greedy source strategy slen).items).1 = true)
    (hmax : (greedy source strategy slen).bytes.length < strategy.resultMax slen) :
    (plainCompress source slen dest strategy).success = true := by
  have hall := emitWhile_snd_of_true hrun
  rw [List.nil_append] at hall
  have hmax' : ¬strategy.resultMax slen ≤ (encode (greedy source strategy slen).items).length :=
    Nat.not_le.mpr hmax
  unfold plainCompress
  simp only [if_neg hf,if_pos hrun,hall,if_neg hmax']

/-- `pglz_compress` succeeds if and only if the strategy admits the source, the coding of the greedy
parse is smaller than the largest result, and the first tag comes early enough. -/
theorem pglzCompress_success_iff (source : ℕ → UInt8) (slen : ℕ) (dest : ℕ → UInt8)
    (strategy : Option PglzStrategy) (entries : ℕ → PglzHistEntry) :
    let s := strategy.getD strategyDefaultData
    let e := greedy source s slen
    (∃ r, pglzCompress source slen dest strategy entries = some r ∧ r.success = true) ↔
      ¬s.Forbids slen ∧ e.bytes.length < s.resultMax slen ∧
        ∀ q i r, e.items = q ++ i::r → q.any Item.isBackref = false →
          ((encode q).length : ℤ) < s.firstSuccessBy := by
  intro s e
  rw [pglzCompress_eq,show strategy.getD strategyDefaultData = s from rfl]
  have hrun := @emitWhile_eq_true_iff s slen [] e.items
  simp only [List.nil_append] at hrun
  constructor
  · rintro ⟨r,hr,hs⟩
    obtain rfl := Option.some.inj hr
    obtain ⟨hf,hend,hmax,-⟩ := plainCompress_success hs
    refine ⟨hf,hmax,fun q i r hq hno => ?_⟩
    by_contra hfirst
    exact hrun.mp hend q i r hq (.inr ⟨hno,by omega⟩)
  · rintro ⟨hf,hmax,hfirst⟩
    refine ⟨_,rfl,plainCompress_success_of dest hf (hrun.mpr fun q i r hq => ?_) hmax⟩
    have hle := encode_prefix_le q (i::r)
    rw [← hq] at hle
    rintro (hgive | ⟨hno,hgive⟩)
    · have hlt : (encode e.items).length < s.resultMax slen := hmax
      omega
    · have := hfirst q i r hq hno
      omega

def PGLZ_MAX_OUTPUT (dlen : ℕ) : ℕ := dlen+4+8

theorem foldl_outItem_stores {slen : ℕ} {dest : ℕ → UInt8} {items : List (Item UInt8)}
    (hc : ∀ i ∈ items, Codable i) (hlen : (encode items).length ≤ slen+3) :
    (∀ a ∈ (items.foldl outItem (startOutput slen dest)).writeCtrl.stores, a < PGLZ_MAX_OUTPUT slen) ∧
      (∀ a ∈ (items.foldl outItem (startOutput slen dest)).stores, a < PGLZ_MAX_OUTPUT slen) ∧
      Logged dest (items.foldl outItem (startOutput slen dest)) := by
  have hem := (emitted_startOutput slen dest).foldl hc
  obtain ⟨-,hbp,hstores⟩ := hem.writeCtrl
  rw [List.nil_append] at hbp
  refine ⟨fun a ha => ?_,fun a ha => ?_,?_⟩
  · have := (hstores a ha).2
    rw [PGLZ_MAX_OUTPUT]
    omega
  · have := (hem.stores a ha).2
    rw [PGLZ_MAX_OUTPUT]
    omega
  · have hstart : Logged dest (startOutput slen dest) := by
      intro a ha
      simp only [startOutput,List.mem_cons,List.not_mem_nil,or_false,not_or] at ha
      by_cases hlt : a < 4
      · exact blit_of_lt dest _ hlt
      · exact blit_of_le dest _ (by omega)
    clear hem hbp hstores hc hlen
    induction items using List.reverseRecOn with
    | nil => exact hstart
    | append_singleton items i ih =>
      rw [List.foldl_append]
      cases i with
      | literal b => exact ih.outLiteral b
      | backref off len => exact ih.outTag len off

/-- Whether it succeeds or fails, `pglz_compress` returns, and stores nothing behind the first
`PGLZ_MAX_OUTPUT` bytes of the buffer. -/
theorem pglzCompress_within (source : ℕ → UInt8) (slen : ℕ) (dest : ℕ → UInt8)
    (strategy : Option PglzStrategy) (entries : ℕ → PglzHistEntry) :
    ∃ r, pglzCompress source slen dest strategy entries = some r ∧
      (∀ a ∈ r.stores, a < PGLZ_MAX_OUTPUT slen) ∧
      ∀ a, PGLZ_MAX_OUTPUT slen ≤ a → r.dest a = dest a := by
  refine ⟨_,pglzCompress_eq source slen dest strategy entries,?_⟩
  generalize strategy.getD strategyDefaultData = s
  suffices h : (∀ a ∈ (plainCompress source slen dest s).stores, a < PGLZ_MAX_OUTPUT slen) ∧
      ∀ a ∉ (plainCompress source slen dest s).stores,
        (plainCompress source slen dest s).dest a = dest a by
    exact ⟨h.1,fun a ha => h.2 a fun hm => absurd (h.1 a hm) (Nat.not_lt.mpr ha)⟩
  obtain ⟨q,r,hq,hrun⟩ := @emitWhile_snd_split s slen [] (greedy source s slen).items
  have hc : ∀ i ∈ (emitWhile s slen [] (greedy source s slen).items).2, Codable i := by
    intro i hi
    rw [hrun,List.nil_append] at hi
    exact (greedy source s slen).codable i (by rw [hq]; exact List.mem_append_left r hi)
  have hlen : (encode (emitWhile s slen [] (greedy source s slen).items).2).length ≤ slen+3 :=
    length_emitWhile_le (by simp [encode])
  obtain ⟨hclosed,hopen,hlog⟩ := @foldl_outItem_stores slen dest _ hc hlen
  unfold plainCompress
  simp only
  split_ifs
  · exact ⟨by simp,fun a _ => rfl⟩
  · exact ⟨hclosed,hlog.writeCtrl⟩
  · refine ⟨?_,fun a ha => ?_⟩
    · simp only [List.mem_cons,PGLZ_MAX_OUTPUT] at hclosed ⊢
      rintro a (rfl | rfl | rfl | rfl | ha) <;> first | omega | exact hclosed a ha
    · simp only [List.mem_cons,not_or] at ha
      exact (blit_of_le _ _ (by omega)).trans (hlog.writeCtrl a ha.2.2.2.2)
  · exact ⟨hopen,hlog⟩

section Items

variable {source : ℕ → UInt8} {e : ℕ} {strategy : PglzStrategy}

theorem three_le_goodMatch (strategy : PglzStrategy) : 3 ≤ strategy.goodMatch := by
  unfold PglzStrategy.goodMatch PGLZ_MAX_MATCH
  split
  · omega
  · split <;> omega

theorem parse_split {n dp : ℕ} {pre post : List (Item UInt8)} {i : Item UInt8}
    (h : parse source e strategy n dp = pre ++ i::post) :
    i = nextItem source e strategy (dp+(pre.map Item.size).sum) := by
  induction n generalizing dp pre with
  | zero => simp [parse] at h
  | succ n ih =>
    rw [parse] at h
    split at h
    · rcases List.cons_eq_append_iff.mp h with ⟨rfl,hi⟩ | ⟨pre',rfl,hrest⟩
      · exact (List.cons.inj hi).1
      · rw [ih hrest,List.map_cons,List.sum_cons,Nat.add_assoc]
    · simp at h

theorem greedy_split {slen : ℕ} {pre post : List (Item UInt8)} {i : Item UInt8}
    (h : (greedy source strategy slen).items = pre ++ i::post) :
    i = nextItem source slen strategy (expand pre).length := by
  have hitem := parse_split h
  rwa [Nat.zero_add,← length_expand] at hitem

/-- A literal that is not among the last three characters starts four characters that stand
nowhere in the 4094 positions before it: whatever repeats nearby is coded as a tag. -/
theorem greedy_literal_fresh {slen : ℕ} (hd : strategy.goodDrop ≤ 33) {pre post : List (Item UInt8)}
    {b : UInt8} (h : (greedy source strategy slen).items = pre ++ .literal b::post)
    (hfour : (expand pre).length+4 ≤ slen) {p : ℕ} (hp : p < (expand pre).length)
    (hoff : (expand pre).length-p < 0x0fff) :
    window source (expand pre).length 4 ≠ window source p 4 := by
  have hitem := greedy_split h
  have hnone : ¬2 < (bestMatch source slen strategy (expand pre).length).1 := by
    intro hlt
    rw [nextItem,if_pos hlt] at hitem
    cases hitem
  exact fresh_of_search hfour hd (three_le_goodMatch strategy) (Nat.le_of_not_lt hnone) hp hoff

theorem greedy_literal_fresh_ascending : ∃ pre post b,
    (greedy (fun i => UInt8.ofNat i) strategyAlwaysData 6).items = pre ++ .literal b::post ∧
      window (fun i => UInt8.ofNat i) (expand pre).length 4 ≠ window (fun i => UInt8.ofNat i) 0 4 := by
  have hitems : (greedy (fun i => UInt8.ofNat i) strategyAlwaysData 6).items =
      [.literal 0] ++ .literal 1::[.literal 2,.literal 3,.literal 4,.literal 5] := by decide +kernel
  exact ⟨_,_,_,hitems,greedy_literal_fresh (by decide) hitems (by decide) (by decide) (by decide)⟩

theorem nextItem_source {source' : ℕ → UInt8} (h : ∀ a < e, source a = source' a) {dp : ℕ} (hdp : dp < e) :
    nextItem source e strategy dp = nextItem source' e strategy dp := by
  have hbest : bestMatch source e strategy dp = bestMatch source' e strategy dp := by
    rw [bestMatch,bestMatch,pglzHistIdx_source h hdp,candidates_source h (Nat.le_of_lt hdp)]
    refine search_source h (Nat.le_of_lt hdp) _ (fun p hp => ?_) _ _
    exact Nat.le_of_lt ((mem_candidates source' e).mp hp).1
  rw [nextItem,nextItem,hbest,h dp hdp]

theorem parse_source {source' : ℕ → UInt8} (h : ∀ a < e, source a = source' a) (n dp : ℕ) :
    parse source e strategy n dp = parse source' e strategy n dp := by
  induction n generalizing dp with
  | zero => rfl
  | succ n ih =>
    rw [parse,parse]
    split
    · rename_i hdp
      rw [nextItem_source h hdp,ih]
    · rfl

end Items

/-- The result depends on the `slen` characters of the source only: neither on what lies behind
them nor on the calls made before. -/
theorem pglzCompress_congr {source source' : ℕ → UInt8} {slen : ℕ}
    (h : ∀ a < slen, source a = source' a) (dest : ℕ → UInt8) (strategy : Option PglzStrategy)
    (entries entries' : ℕ → PglzHistEntry) :
    pglzCompress source slen dest strategy entries = pglzCompress source' slen dest strategy entries' := by
  have hitems : ∀ s, (greedy source s slen).items = (greedy source' s slen).items := fun s =>
    parse_source h (slen+1) 0
  simp only [pglzCompress_eq,plainCompress,hitems]

theorem pglzCompress_congr_repeating :
    pglzCompress repeating 8 (fun _ => 0) (some strategyAlwaysData) (fun _ => ⟨none,none,0,0⟩) =
      pglzCompress (fun i => if i < 8 then repeating i else 0xff) 8 (fun _ => 0)
        (some strategyAlwaysData) (fun i => ⟨some i,some i,i,i⟩) :=
  pglzCompress_congr (fun a ha => by simp [ha]) _ _ _ _

end PageDumper
