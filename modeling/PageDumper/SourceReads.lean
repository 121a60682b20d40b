import PageDumper.CompressedValue
import PageDumper.PglzExits

/-! Which source bytes the decompression of a value reads. The header that `fetch_data`
builds carries the size from the pointer and not the number of bytes fetched, so the reads
stay inside the fetched buffer only if the decoder stops by itself: at the end of the output,
at a tag it cannot follow, or at the length from the pointer. -/
namespace PageDumper
open Memory Words Reader RowTable

def ReadsBelow (n : ℕ) (s : Decoder) : Prop := ∀ i : ℕ, .source i ∈ s.log → i < n

section Reading

variable {src : ℕ → UInt8} {srcend : ℕ} {destend : ℤ} {n : ℕ}

theorem ReadsBelow.cons {i : ℕ} {s s' : Decoder} (h : ReadsBelow n s) (hi : i < n)
    (hlog : ∀ j : ℕ, .source j ∈ s'.log → j = i ∨ .source j ∈ s.log) : ReadsBelow n s' := by
  intro j hj
  rcases hlog j hj with rfl | hj
  · exact hi
  · exact h j hj

theorem ReadsBelow.readTag {s : Decoder} (h : ReadsBelow n s) (hn : (readTag src s).2.sp ≤ n) :
    ReadsBelow n (readTag src s).2 := by
  simp only [PageDumper.readTag] at hn ⊢
  intro i hi
  split at hn <;> split at hi <;> simp_all only [Decoder.fetch,List.mem_cons,Access.source.injEq,not_true_eq_false]
  · rcases hi with rfl | rfl | rfl | hi
    · omega
    · omega
    · omega
    · exact h i hi
  · rcases hi with rfl | rfl | hi
    · omega
    · omega
    · exact h i hi

theorem tokenwise_reads (src : ℕ → UInt8) (srcend : ℕ) (destend : ℤ) (n : ℕ) :
    Tokenwise src srcend destend n fun r s ts => ReadsBelow n s →
      (ReadsBelow n (final r) ↔ StopsWithin srcend destend s.sp s.dp ts) where
  at_end _ t _ hend h := iff_of_true h (.inl (t.stops_of_le hend))
  full _ _ _ ht hfull h := iff_of_true h (.inl (Token.stops_of_full ht hfull))
  control _ s _ hn hsp hdp hrest h := by
    have hstop : ¬ (srcend ≤ s.sp ∨ destend ≤ s.dp) := by omega
    rw [hrest (h.cons hn (by simp [Decoder.fetch]))]
    simp only [StopsWithin,Token.Stops,hstop,false_or]
    rfl
  literal _ s _ hn hsp hdp hrest h := by
    have hstop : ¬ (srcend ≤ s.sp ∨ destend ≤ s.dp) := by omega
    rw [hrest (h.cons hn (by simp [Decoder.literal]))]
    simp only [StopsWithin,Token.Stops,hstop,false_or]
    rfl
  overrun _ _ _ _ _ hn _ hover h := iff_of_true (h.readTag hn) (.inl (.inr (.inl hover)))
  giveup _ _ _ _ _ hn _ _ hback h :=
    iff_of_true (fun i hi => h.readTag hn i (by simpa [Decoder.giveup] using hi))
      (.inl (.inr (.inr hback)))
  copied _ _ _ s s' b off len _ hn hsp hover hoff _ hc hsp' hdp' hrest h := by
    have hstop : ¬ (srcend ≤ s.sp ∨ destend < s.dp+len ∨ s.dp < off) := by omega
    obtain ⟨t,ht,-,-,hlog⟩ := copyTag_of_le off len (s := (readTag src s).2)
      (by rw [readTag_dp]; exact hoff)
    rw [hc,Except.ok.injEq] at ht
    rw [hrest fun i hi => h.readTag hn i ((hlog i).mp (ht ▸ hi)),hsp',hdp']
    simp only [StopsWithin,Token.Stops,Token.bytes,Token.output,hstop,false_or]

theorem missing_reads (srcend : ℕ) (destend : ℤ) (n : ℕ) :
    Missing srcend destend n fun r s ts => ReadsBelow n s →
      (ReadsBelow n (final r) ↔ StopsWithin srcend destend s.sp s.dp ts) := by
  intro r s t j hstop _ _ hj hmem _
  refine iff_of_false (fun h => Nat.lt_irrefl j ((h j hmem).trans_le hj)) ?_
  simp only [StopsWithin,hstop,or_self,not_false_eq_true]

end Reading

theorem readsBelow_start {n : ℕ} (h : 8 ≤ n) (dest : ℕ → UInt8) : ReadsBelow n (.start dest) := by
  intro i hi
  simp only [Decoder.start,List.mem_map,List.mem_range,Access.source.injEq] at hi
  omega

theorem pglzDecompress_readsBelow_iff {source : ℕ → UInt8} {l : List UInt8} (h : Holds source 8 l)
    (dest : ℕ → UInt8) :
    ReadsBelow (8+l.length) (pglzDecompress source dest).state ↔
      StopsWithin (varsize (le32 source 0)) (int32 (le32 source 4)) 8 0 (tokens 0 0 l) := by
  rw [pglzDecompress_state]
  exact proceed_tokens (tokenwise_reads source _ _ _) (missing_reads _ _ _) 0 0 l _ (.start dest) h rfl
    (Nat.le_add_left _ _) (readsBelow_start (by omega) dest)

/-! ### Reads for an empty output vector -/

theorem length_tokens_pos (k ctrl : ℕ) (l : List UInt8) : 0 < (tokens k ctrl l).length := by
  fun_cases tokens k ctrl l <;> simp

/-- The control byte and the first item of the stream, as far as there is input for them, are not
the last of its tokens, which is the one for which bytes are missing. -/
def FirstItemWithin (srcend : ℕ) (ts : List Token) : Prop :=
  (8 < srcend → 1 < ts.length) ∧ (9 < srcend → 2 < ts.length)

theorem readsBelow_killedAt_iff {src : ℕ → UInt8} {n k : ℕ} (hk : 0 < k) (ctrl : ℕ) {l : List UInt8}
    {s : Decoder} (hsrc : Holds src s.sp l) (hl : s.sp+l.length = n) (h : ReadsBelow n s) :
    ReadsBelow n (s.killedAt src ctrl) ↔ 1 < (tokens k ctrl l).length := by
  have hmore : ∀ (t : Token) (k ctrl : ℕ) (l : List UInt8), 1 < (t::tokens k ctrl l).length := by
    intro t k ctrl l
    have := length_tokens_pos k ctrl l
    rw [List.length_cons]
    omega
  have htag : ctrl &&& 1 ≠ 0 → (ReadsBelow n (s.killedAt src ctrl) ↔ ReadsBelow n (readTag src s).2) := by
    intro hbit
    rw [Decoder.killedAt,if_pos hbit]
    simp only [ReadsBelow,List.mem_cons,reduceCtorEq,false_or]
  have hcut : ∀ j, n ≤ j → .source j ∈ (readTag src s).2.log → ¬ ReadsBelow n (readTag src s).2 :=
    fun j hj hmem h => Nat.lt_irrefl j ((h j hmem).trans_le hj)
  fun_cases tokens k ctrl l with
  | case1 => exact absurd hk (Nat.lt_irrefl 0)
  | case2 => exact absurd hk (Nat.lt_irrefl 0)
  | case3 k ctrl hb t1 t2 len off hlen t3 l =>
    simp only [holds_cons,List.length_cons,Nat.add_assoc] at hsrc hl
    have ht := readTag_three hsrc.1 hsrc.2.1 hsrc.2.2.1 hlen
    exact iff_of_true ((htag hb).mpr (h.readTag (by rw [ht]; simp only []; omega))) (hmore _ _ _ _)
  | case4 k ctrl hb t1 t2 len hlen =>
    simp only [holds_cons,List.length_cons,List.length_nil] at hsrc hl
    have ht := readTag_three hsrc.1 hsrc.2.1 rfl hlen
    rw [htag hb]
    exact iff_of_false (hcut (s.sp+2) (by omega) (by simp [ht])) (by simp)
  | case5 k ctrl hb t1 t2 l len off hlen =>
    simp only [holds_cons,List.length_cons,Nat.add_assoc] at hsrc hl
    have ht := readTag_two hsrc.1 hsrc.2.1 hlen
    exact iff_of_true ((htag hb).mpr (h.readTag (by rw [ht]; simp only []; omega))) (hmore _ _ _ _)
  | case6 k ctrl l hb hshort =>
    have hl' := length_le_one hshort
    rw [htag hb]
    exact iff_of_false (hcut (s.sp+1) (by omega) (mem_log_readTag src s)) (by simp)
  | case7 k ctrl hb c l =>
    rw [List.length_cons] at hl
    rw [Decoder.killedAt,if_neg hb]
    exact iff_of_true (h.cons (show s.sp < n by omega) (by simp)) (hmore _ _ _ _)
  | case8 k ctrl hb =>
    rw [List.length_nil] at hl
    rw [Decoder.killedAt,if_neg hb]
    refine iff_of_false (fun h => ?_) (by simp)
    have := h s.sp (by simp)
    omega

theorem pglzDecompressAt_readsBelow_iff {source : ℕ → UInt8} {l : List UInt8} (h : Holds source 8 l)
    (hraw : int32 (le32 source 4) < 0) (memory : ℕ → UInt8) :
    ReadsBelow (8+l.length) (pglzDecompressAt source 0 memory).state ↔
      FirstItemWithin (varsize (le32 source 0)) (tokens 0 0 l) := by
  have hstart : ReadsBelow (8+l.length) (Decoder.startAt 0 memory) :=
    readsBelow_start (Nat.le_add_right 8 _) memory
  rw [pglzDecompressAt_null hraw]
  dsimp only
  generalize varsize (le32 source 0) = srcend
  cases l with
  | nil =>
    have hmiss : ∀ s : Decoder, .source 8 ∈ s.log → ¬ ReadsBelow 8 s := fun s hmem h => by
      have := h 8 hmem
      omega
    have hread : .source 8 ∈ ((Decoder.startAt 0 memory).fetch source).2.log := List.mem_cons_self ..
    simp only [FirstItemWithin,tokens,List.length_nil,List.length_singleton,Nat.add_zero]
    split_ifs
    · exact iff_of_false (hmiss _ ((before_killedAt source _ _).log.subset hread)) (by omega)
    · exact iff_of_false (hmiss _ hread) (by omega)
    · exact iff_of_true hstart (by omega)
    · exact iff_of_true hstart (by omega)
  | cons c l =>
    rw [holds_cons] at h
    have hpos := length_tokens_pos 8 c.toNat l
    have hfetch : ReadsBelow (8+(c::l).length) ((Decoder.startAt 0 memory).fetch source).2 :=
      hstart.cons (show 8 < 8+(c::l).length by simp) (by simp [Decoder.fetch,Decoder.startAt])
    simp only [FirstItemWithin,tokens,List.length_cons] at hfetch ⊢
    split_ifs
    · rw [h.1,readsBelow_killedAt_iff (k := 8) (by omega) c.toNat h.2
        (by simp only [Decoder.fetch,Decoder.startAt]; omega) hfetch]
      omega
    · exact iff_of_true hfetch (by omega)
    · exact iff_of_true hstart (by omega)
    · exact iff_of_true hstart (by omega)

def storedRawsize (bytes : List UInt8) : UInt32 := le32 (fun i => bytes.getD i 0) 0

theorem le32_fetched {bytes : List UInt8} (h : 4 ≤ bytes.length) (behind : ℕ → UInt8) :
    le32 (fetched bytes behind) 4 = storedRawsize bytes := by
  apply le32_congr
  intro i hi
  simp only [fetched,Nat.zero_add]
  rw [if_neg (by omega),if_pos (by omega),Nat.add_sub_cancel_left]

theorem mem_sourceIndices {log : List Access} {i : ℕ} : i ∈ sourceIndices log ↔ .source i ∈ log := by
  simp only [sourceIndices,List.mem_filterMap]
  constructor
  · rintro ⟨a,ha,he⟩
    cases a <;> simp_all
  · exact fun h => ⟨_,h,rfl⟩

/-- The bytes fetched for a value keep the decoder inside them: the stored size is there, and it
is refused, or a token stops the decoder. For the size that makes the output vector empty it
is enough that the first item is there. -/
def KeepsInside (vaRawsize : UInt32) (bytes : List UInt8) : Prop :=
  4 ≤ bytes.length ∧
    if int32 (storedRawsize bytes) = -1024 then
      FirstItemWithin (varsize (vaRawsize <<< 2)) (tokens 0 0 (bytes.drop 4))
    else int32 (storedRawsize bytes+1024) < 0 ∨
      StopsWithin (varsize (vaRawsize <<< 2)) (int32 (storedRawsize bytes)) 8 0
        (tokens 0 0 (bytes.drop 4))

theorem forall_reads_iff {n : ℕ} (hn : 8 ≤ n) (s : Decoder) :
    (∀ i ∈ [4,5,6,7] ++ sourceIndices s.log, i < n) ↔ ReadsBelow n s := by
  simp only [List.mem_append,mem_sourceIndices]
  refine ⟨fun h i hi => h i (.inr hi),fun h i hi => ?_⟩
  rcases hi with hi | hi
  · simp only [List.mem_cons,List.not_mem_nil,or_false] at hi
    omega
  · exact h i hi

theorem decompressValue_reads_iff (vaRawsize : UInt32) (bytes : List UInt8) (behind out : ℕ → UInt8) :
    (∀ i ∈ (decompressValue vaRawsize (fetched bytes behind) out).sourceReads, i < 4+bytes.length) ↔
      KeepsInside vaRawsize bytes := by
  rcases Nat.lt_or_ge bytes.length 4 with hlen | hlen
  · refine iff_of_false (fun h => ?_) fun h => by
      have := h.1
      omega
    have hmem : 7 ∈ (decompressValue vaRawsize (fetched bytes behind) out).sourceReads := by
      simp only [decompressValue]
      split_ifs <;> simp
    have := h 7 hmem
    omega
  have hheader := holds_fetched_stream hlen vaRawsize behind
  have hraw := le32_fetched hlen behind
  have hn : 8+(bytes.drop 4).length = 4+bytes.length := by
    rw [List.length_drop]
    omega
  simp only [KeepsInside,hlen,true_and]
  by_cases hnull : int32 (storedRawsize bytes) = -1024
  · have hiff := pglzDecompressAt_readsBelow_iff hheader
      (by rw [le32_putLe32_rawsize,hraw]; omega) out
    rw [le32_putLe32,hn] at hiff
    rw [decompressValue_null (by rw [hraw]; exact hnull),if_pos hnull,← hiff]
    dsimp only
    split_ifs <;> exact forall_reads_iff (by omega) _
  · have hiff := pglzDecompress_readsBelow_iff hheader
      (freshVector (storedRawsize bytes+1024).toNat out)
    rw [le32_putLe32,le32_putLe32_rawsize,hraw,hn] at hiff
    rw [decompressValue_of_area (by rw [hraw]; exact hnull),if_neg hnull,hraw,← hiff]
    dsimp only
    by_cases hvec : int32 (storedRawsize bytes+1024) < 0
    · rw [if_pos hvec]
      refine iff_of_true (fun i hi => ?_) (.inl hvec)
      simp only [List.mem_cons,List.not_mem_nil,or_false] at hi
      omega
    · rw [if_neg hvec]
      simp only [hvec,false_or]
      split_ifs <;> exact forall_reads_iff (by omega) _

/-- The number of bytes that a call fetches, with the length word in front of them. -/
def fetchedSize (p : ToastPointer) (toast : ToastMap) : ℕ :=
  4+payloadSize ((toast.positions p.pointer.vaValueid).getD [])

/-- For every map and every compressed pointer, the bytes that a call reads of its fetched
buffer lie inside it if and only if the value is not recorded, or too long for the buffer,
or the bytes of its chunks keep the decoder inside them. -/
theorem fetchData_sourceReads_iff (p : ToastPointer) (toast : ToastMap) (heap : Heap)
    (hc : p.isCompressed = true) :
    (∀ i ∈ (p.fetchData toast heap).sourceReads, i < fetchedSize p toast) ↔
      ∀ datas, toast.positions p.pointer.vaValueid = some datas → 4+payloadSize datas < 2^32 →
        KeepsInside p.pointer.vaRawsize (toast.file.gather 0 (ranges datas)).1 := by
  cases h : toast.positions p.pointer.vaValueid with
  | none =>
    rw [fetchData_unknown h]
    simp
  | some datas =>
    simp only [fetchedSize,h,Option.getD_some,Option.some.injEq,forall_eq']
    rcases Nat.lt_or_ge (4+payloadSize datas) (2^32) with hfit | hfit
    · have hl := length_gather_ranges toast.file datas
      have hiff := decompressValue_reads_iff p.pointer.vaRawsize
        (toast.file.gather 0 (ranges datas)).1 heap.result heap.decompressed
      rw [hl] at hiff
      rw [fetchData_compressed h hfit hc,forall_prop_of_true hfit]
      dsimp only
      rw [hiff]
    · rw [fetchData_overflow h hfit]
      simp only [List.not_mem_nil,false_implies,implies_true,true_iff]
      omega

/-- A value of 8 bytes of which only the stored size and one control byte are left. -/
def truncatedMap : ToastMap :=
  ⟨fun id => if id = 3 then some [⟨0,5⟩] else none,
    .opened ⟨5,fun i => (leBytes 8 ++ [0]).getD i 0⟩⟩

def truncatedPointer : ToastPointer := .ofExternal ⟨12,5,3,0⟩

theorem fetchData_sourceReads_truncated :
    (∀ i ∈ (truncatedPointer.fetchData truncatedMap ⟨fun _ => 0,fun _ => 0⟩).sourceReads,
      i < fetchedSize truncatedPointer truncatedMap) ↔
      ∀ datas, truncatedMap.positions truncatedPointer.pointer.vaValueid = some datas →
        4+payloadSize datas < 2^32 → KeepsInside truncatedPointer.pointer.vaRawsize
          (truncatedMap.file.gather 0 (ranges datas)).1 :=
  fetchData_sourceReads_iff truncatedPointer truncatedMap ⟨fun _ => 0,fun _ => 0⟩ rfl

theorem not_reads_within_truncated :
    (truncatedPointer.fetchData truncatedMap ⟨fun _ => 0,fun _ => 0⟩).sourceReads =
      [4,5,6,7,11,10,9,8,0,1,2,3,4,5,6,7] ∧
    ¬ ∀ i ∈ (truncatedPointer.fetchData truncatedMap ⟨fun _ => 0,fun _ => 0⟩).sourceReads,
      i < fetchedSize truncatedPointer truncatedMap := by
  have hreads : (truncatedPointer.fetchData truncatedMap ⟨fun _ => 0,fun _ => 0⟩).sourceReads =
      [4,5,6,7,11,10,9,8,0,1,2,3,4,5,6,7] := rfl
  have hsize : fetchedSize truncatedPointer truncatedMap = 9 := rfl
  refine ⟨hreads,?_⟩
  rw [hreads,hsize]
  decide

end PageDumper
