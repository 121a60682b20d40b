import PageDumper.ToastPointer
import PageDumper.PglzRoundTrip

/-! What `fetch_data` returns: the length of the value, which nothing compares with the
sizes in the pointer, and the in-band error signal of the compressed branch, which takes a
plain text that starts with `cc` for a decompression that gave up. -/
namespace PageDumper
open Memory Words Reader RowTable LZ77

/-! ### The length of the returned value -/

theorem decompressValue_ok {vaRawsize : UInt32} {result behind : ℕ → UInt8} {v : List UInt8}
    (h : (decompressValue vaRawsize result behind).outcome = .ok v) :
    (pglzDecompress (putLe32 result 0 (vaRawsize <<< 2))
        (freshVector (le32 result 4+1024).toNat behind)).exit ≠ .aborted ∧
      v = window (pglzDecompress (putLe32 result 0 (vaRawsize <<< 2))
        (freshVector (le32 result 4+1024).toNat behind)).state.dest 0 (le32 result 4).toNat ∧
      0 ∈ (decompressValue vaRawsize result behind).checkReads := by
  by_cases hnull : int32 (le32 result 4) = -1024
  · rw [decompressValue_null hnull] at h
    dsimp only at h
    split_ifs at h
  · rw [decompressValue_of_area hnull] at h ⊢
    dsimp only at h ⊢
    split_ifs at h ⊢ with hvec habort <;> simp only [Except.ok.injEq] at h <;>
      exact ⟨habort,h.symm,by simp⟩

theorem holds_fetched_stream {bytes : List UInt8} (h : 4 ≤ bytes.length) (vaRawsize : UInt32)
    (behind : ℕ → UInt8) :
    Holds (putLe32 (fetched bytes behind) 0 (vaRawsize <<< 2)) 8 (bytes.drop 4) := by
  have hall := window_fetched bytes behind
  have hsplit : Holds (fetched bytes behind) 4 (bytes.take 4 ++ bytes.drop 4) := by
    rw [List.take_append_drop]
    exact hall
  have hrest := (holds_append.mp hsplit).2
  rw [List.length_take,Nat.min_eq_left h] at hrest
  exact hrest.congr fun i _ => (putLe32_of_le _ _ (by omega)).symm

theorem holds_pglzHeader (vaRawsize w : UInt32) (l : List UInt8) (behind : ℕ → UInt8) :
    le32 (putLe32 (fetched (leBytes w ++ l) behind) 0 (vaRawsize <<< 2)) 4 = w ∧
      Holds (putLe32 (fetched (leBytes w ++ l) behind) 0 (vaRawsize <<< 2)) 8 l := by
  have hall : Holds (fetched (leBytes w ++ l) behind) 4 (leBytes w ++ l) := window_fetched _ _
  have hlen : 4 ≤ (leBytes w ++ l).length := by simp
  have hstream := holds_fetched_stream hlen vaRawsize behind
  rw [List.drop_left' (length_leBytes w)] at hstream
  exact ⟨(le32_putLe32_rawsize _ _).trans (le32_of_holds (holds_append.mp hall).1),hstream⟩

/-- A compressed pointer and what the toast file stores for it: the length of the plain
text and a stream of the format that expands to it. -/
structure StoredCompressed (toast : ToastMap) (p : ToastPointer) (e : PglzStream) : Prop where
  good : toast.file.failbit = false
  stored : ∃ datas, toast.positions p.pointer.vaValueid = some datas ∧
    toast.file.file.Covers (ranges datas) ∧
    toast.file.file.extract (ranges datas) = leBytes (UInt32.ofNat e.expansion.length) ++ e.bytes
  small : e.expansion.length < 2^31
  compressed : p.isCompressed = true

theorem coversText_of_sizes {p : ToastPointer} {e : PglzStream}
    (hraw : p.pointer.vaRawsize.toNat = e.expansion.length+4) (hsmall : e.expansion.length+4 < 2^30)
    (hext : p.pointer.vaExtsize.toNat = 4+e.bytes.length) (hc : p.isCompressed = true) :
    CoversText e (varsize (p.pointer.vaRawsize <<< 2)) := by
  have hbytes := e.length_bytes_le
  have hr : (p.pointer.vaRawsize-4).toNat = e.expansion.length := by
    rw [UInt32.toNat_sub_of_le _ _ (by rw [UInt32.le_iff_toNat_le,show (4 : UInt32).toNat = 4 from rfl]; omega),
      hraw]
    rfl
  have hlt : int32 p.pointer.vaExtsize < int32 (p.pointer.vaRawsize-4) := by
    simpa [ToastPointer.isCompressed] using hc
  rw [int32_of_lt (by omega),int32_of_lt (by omega),hr,hext] at hlt
  have hs : (p.pointer.vaRawsize <<< 2).toNat = p.pointer.vaRawsize.toNat*4 := by
    rw [UInt32.toNat_shiftLeft]
    simp only [UInt32.reduceToNat,Nat.reduceMod,Nat.shiftLeft_eq]
    omega
  have hne : e.items ≠ [] := by
    intro hnil
    rw [PglzStream.expansion,hnil] at hlt
    simp [expand] at hlt
    omega
  have hstart := itemStart_lt_length_encode e.items.dropLast (List.cons_ne_nil (e.items.getLast hne) [])
  rw [List.dropLast_append_getLast hne] at hstart
  left
  rw [varsize_eq,hs]
  rw [PglzStream.bytes] at hlt hext
  omega

/-- The text is returned as it is, the exception for corrupted data is thrown only if the
decoder gave up, and the marker test looks only at elements of the output vector. -/
def SignalsFaithfully (r : Fetch) (text : List UInt8) : Prop :=
  r.outcome = .ok text ∧ (r.outcome = .error corrupted → r.exit = some .gaveUp) ∧
    ∀ i ∈ r.checkReads, i < text.length

def Unmarked : List UInt8 → Prop
  | [] => False
  | [a] => a ≠ 0x63
  | a::b::_ => a ≠ 0x63 ∨ b ≠ 0x63

theorem getElem_zero_of_holds {m : ℕ → UInt8} {a b : UInt8} {l : List UInt8} :
    Holds m 0 (a::b::l) → m 0 = a ∧ m 1 = b := by
  intro h
  rw [holds_cons,holds_cons] at h
  exact ⟨h.1,h.2.1⟩

theorem decompressValue_signals_iff {vaRawsize : UInt32} {result : ℕ → UInt8} {e : PglzStream}
    (hsrc : Holds (putLe32 result 0 (vaRawsize <<< 2)) 8 e.bytes)
    (hraw : (le32 result 4).toNat = e.expansion.length) (hsmall : e.expansion.length < 2^31)
    (behind : ℕ → UInt8) (stream : Stream UInt8) (assembled : List UInt8) :
    SignalsFaithfully ⟨(decompressValue vaRawsize result behind).outcome,stream,assembled,
        (decompressValue vaRawsize result behind).exit,
        (decompressValue vaRawsize result behind).sourceReads,
        (decompressValue vaRawsize result behind).checkReads⟩ e.expansion ↔
      e.expansion.length+1024 < 2^31 ∧ Unmarked e.expansion ∧
        CoversText e (varsize (vaRawsize <<< 2)) := by
  simp only [SignalsFaithfully]
  have h₁₀₂₄ : (1024 : UInt32).toNat = 1024 := rfl
  have hvector : (le32 result 4+1024).toNat = e.expansion.length+1024 := by
    rw [toNat_add_of_lt (by omega),hraw,h₁₀₂₄]
  rcases Nat.lt_or_ge (e.expansion.length+1024) (2^31) with hlen | hlen
  · rcases eq_or_ne e.expansion [] with hnil | hne
    · -- a normal return looks at the first byte, and an empty text has none
      rw [hnil]
      refine iff_of_false ?_ fun h => h.2.1
      rintro ⟨hok,-,hchecks⟩
      exact absurd (hchecks 0 (decompressValue_ok hok).2.2) (Nat.lt_irrefl 0)
    have hvec : ¬ int32 (le32 result 4+1024) < 0 := by
      rw [int32_of_lt (by omega)]
      omega
    have hrawsize : int32 (le32 result 4) = e.expansion.length := by
      rw [int32_of_lt (by omega),hraw]
    have hneg : ¬ int32 (le32 result 4) < 0 := by omega
    have hheader : int32 (le32 (putLe32 result 0 (vaRawsize <<< 2)) 4) = e.expansion.length := by
      rw [le32_putLe32_rawsize,hrawsize]
    have hfresh : ∀ i < e.expansion.length+1024,
        freshVector (le32 result 4+1024).toNat behind i = 0 := by
      intro i hi
      rw [freshVector,if_pos (by omega)]
    have hiff := pglzDecompress_text_iff e _ (freshVector (le32 result 4+1024).toNat behind) hsrc
      hheader (fun i hi => hfresh i (Nat.lt_add_right 1024 hi)) hne
    have hexits := pglzDecompress_not_gaveUp e _ (freshVector (le32 result 4+1024).toNat behind) hsrc
      hheader
    have hframe := (pglzDecompress_storesWithin (putLe32 result 0 (vaRawsize <<< 2))
      (freshVector (le32 result 4+1024).toNat behind)).frame
    rw [le32_putLe32] at hiff
    rw [hheader] at hframe
    by_cases hcov : CoversText e (varsize (vaRawsize <<< 2))
    · obtain ⟨hexit,hdest⟩ := hiff.mpr hcov
      rw [decompressValue_of_area (by omega)]
      simp only [if_neg hvec,if_neg hneg,hexit,reduceCtorEq,if_false,hraw,hlen,hcov,true_and,and_true]
      generalize pglzDecompress _ _ = run at hdest hframe ⊢
      have hwin : window run.state.dest 0 e.expansion.length = e.expansion := hdest
      rw [hwin]
      cases htext : e.expansion with
      | nil => exact absurd htext hne
      | cons a l =>
        cases l with
        | nil =>
          have h₁ := (hframe 1 (by simp [htext])).trans (hfresh 1 (by omega))
          rw [htext,holds_cons] at hdest
          by_cases ha : a = 0x63 <;> simp [Unmarked,hdest.1,h₁,ha]
        | cons b l =>
          rw [htext] at hdest
          obtain ⟨h₀,h₁⟩ := getElem_zero_of_holds hdest
          by_cases ha : a = 0x63 <;> by_cases hb : b = 0x63 <;>
            simp [Unmarked,h₀,h₁,ha,hb,corrupted]
    · refine iff_of_false (fun h => hcov (hiff.mp ?_)) fun h => hcov h.2.2
      obtain ⟨habort,hwin,-⟩ := decompressValue_ok h.1
      rw [hraw] at hwin
      exact ⟨hexits.resolve_right habort,hwin.symm⟩
  · have hvec : int32 (le32 result 4+1024) < 0 := by
      rw [int32_eq,if_neg (by omega)]
      omega
    rw [decompressValue_of_area (by rw [int32_of_lt (by omega)]; omega)]
    simp only [if_pos hvec]
    refine iff_of_false ?_ (by omega)
    rintro ⟨ho,-⟩
    cases ho

/-- For every stored stream, the error signalling is faithful if and only if the output
vector with its spare kilobyte has a size that fits an `int`, the text is not empty and not
`c` and does not start with `cc`, and the size in the pointer covers it. -/
theorem fetchData_signals_iff {toast : ToastMap} {p : ToastPointer} {e : PglzStream}
    (h : StoredCompressed toast p e) (heap : Heap) :
    SignalsFaithfully (p.fetchData toast heap) e.expansion ↔
      e.expansion.length+1024 < 2^31 ∧ Unmarked e.expansion ∧
        CoversText e (varsize (p.pointer.vaRawsize <<< 2)) := by
  obtain ⟨hgood,⟨datas,hrow,hcov,hextract⟩,hsmall,hcomp⟩ := h
  have hfit : 4+payloadSize datas < 2^32 := by
    have hbytes := e.length_bytes_le
    have hl := congrArg List.length hextract
    rw [length_extract,sum_ranges,List.length_append,length_leBytes] at hl
    omega
  have hw : (UInt32.ofNat e.expansion.length).toNat = e.expansion.length :=
    UInt32.toNat_ofNat_of_lt' (Nat.lt_trans hsmall (by decide))
  obtain ⟨hraw,hbytes⟩ := holds_pglzHeader p.pointer.vaRawsize (UInt32.ofNat e.expansion.length)
    e.bytes heap.result
  rw [fetchData_compressed hrow hfit hcomp]
  simp only [gather_covered 0 hgood hcov,hextract]
  rw [le32_putLe32_rawsize] at hraw
  exact decompressValue_signals_iff hbytes (by rw [hraw,hw]) hsmall _ _ _

def repeatStream (b : UInt8) : PglzStream where
  items := [.literal b,.backref 1 20]
  codable := by simp [Codable]
  valid := ⟨le_rfl,le_rfl,trivial⟩

theorem repeatStream_bytes (b : UInt8) : (repeatStream b).bytes = [2,b,15,1,2] := by
  rw [PglzStream.bytes,repeatStream,encode,Grouping.groupsOf_of_length_le (by simp)]
  rfl

theorem repeatStream_expansion (b : UInt8) : (repeatStream b).expansion = List.replicate 21 b :=
  LZ77.copyRun_one b 20 0

/-- Value 9 of this map is that encoding, in one chunk with its length in front. -/
def repeatMap (b : UInt8) : ToastMap :=
  ⟨fun id => if id = 9 then some [⟨0,9⟩] else none,
    .opened ⟨9,fun i => (leBytes 21 ++ [2,b,15,1,2]).getD i 0⟩⟩

def repeatPointer : ToastPointer := .ofExternal ⟨25,9,9,0⟩

theorem storedCompressed_repeat (b : UInt8) :
    StoredCompressed (repeatMap b) repeatPointer (repeatStream b) where
  good := rfl
  stored := by
    refine ⟨[⟨0,9⟩],rfl,of_decide_eq_true rfl,?_⟩
    rw [repeatStream_bytes,repeatStream_expansion]
    rfl
  small := by rw [repeatStream_expansion,List.length_replicate]; decide
  compressed := rfl

theorem coversText_repeat (b : UInt8) :
    CoversText (repeatStream b) (varsize (repeatPointer.pointer.vaRawsize <<< 2)) :=
  coversText_of_sizes (by rw [repeatStream_expansion,List.length_replicate]; decide)
    (by rw [repeatStream_expansion,List.length_replicate]; decide)
    (by rw [repeatStream_bytes]; rfl) rfl

theorem fetchData_signals_repeat :
    SignalsFaithfully (repeatPointer.fetchData (repeatMap 0x61) ⟨fun _ => 0,fun _ => 0⟩)
        (repeatStream 0x61).expansion ↔
      (repeatStream 0x61).expansion.length+1024 < 2^31 ∧ Unmarked (repeatStream 0x61).expansion ∧
        CoversText (repeatStream 0x61) (varsize (repeatPointer.pointer.vaRawsize <<< 2)) :=
  fetchData_signals_iff (storedCompressed_repeat 0x61) ⟨fun _ => 0,fun _ => 0⟩

/-- A text of 21 times `c` is refused as corrupted although it was decompressed without error. -/
theorem not_signals_repeat :
    StoredCompressed (repeatMap 0x63) repeatPointer (repeatStream 0x63) ∧
      CoversText (repeatStream 0x63) (varsize (repeatPointer.pointer.vaRawsize <<< 2)) ∧
      (repeatPointer.fetchData (repeatMap 0x63) ⟨fun _ => 0,fun _ => 0⟩).outcome = .error corrupted ∧
      (repeatPointer.fetchData (repeatMap 0x63) ⟨fun _ => 0,fun _ => 0⟩).exit = some .returned ∧
      ¬ SignalsFaithfully (repeatPointer.fetchData (repeatMap 0x63) ⟨fun _ => 0,fun _ => 0⟩)
        (repeatStream 0x63).expansion := by
  refine ⟨storedCompressed_repeat 0x63,coversText_repeat 0x63,rfl,rfl,?_⟩
  rintro ⟨ho,-⟩
  cases ho

end PageDumper
