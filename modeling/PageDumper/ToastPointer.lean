import PageDumper.ToastMap
import PageDumper.PglzNull

/-! `ToastPointer::fetch_data`: assembling the chunks of a value and, for a compressed one,
decompressing them. The two vectors of the function are memories that are zero where the
vector has elements and unspecified behind them. Besides what it returns, a call is described
by the bytes it assembled and by the addresses it read in the two vectors. -/
namespace PageDumper
open Memory Words Reader RowTable

/-- `varatt_external`; the two sizes are `int32`, the other two `Oid`. -/
structure VarattExternal where
  vaRawsize : UInt32
  vaExtsize : UInt32
  vaValueid : UInt32
  vaToastrelid : UInt32

structure ToastPointer where
  mem : ℕ → UInt8

namespace ToastPointer

def pointerSize (p : ToastPointer) : UInt8 := p.mem 0

def pointer (p : ToastPointer) : VarattExternal :=
  ⟨le32 p.mem 1,le32 p.mem 5,le32 p.mem 9,le32 p.mem 13⟩

def buildString (p : ToastPointer) : String :=
  "TOAST_POINTER[" ++ toString p.pointerSize.toNat ++ "] = \x7b" ++
    toString (int32 p.pointer.vaRawsize) ++ "," ++ toString (int32 p.pointer.vaExtsize) ++ "," ++
    toString p.pointer.vaValueid.toNat ++ "," ++ toString p.pointer.vaToastrelid.toNat ++ "\x7d"

def isCompressed (p : ToastPointer) : Bool :=
  int32 p.pointer.vaExtsize < int32 (p.pointer.vaRawsize-4)

def ofExternal (e : VarattExternal) : ToastPointer :=
  ⟨fun i => (18::(leBytes e.vaRawsize ++ leBytes e.vaExtsize ++ leBytes e.vaValueid ++
    leBytes e.vaToastrelid)).getD i 0⟩

end ToastPointer

/-- What lies behind the elements of the vectors `result` and `decompressed`. -/
structure Heap where
  result : ℕ → UInt8
  decompressed : ℕ → UInt8

def freshVector (n : ℕ) (behind : ℕ → UInt8) : ℕ → UInt8 := fun i => if i < n then 0 else behind i

structure Assembly where
  result : ℕ → UInt8
  stream : Stream UInt8
  pos : UInt32

/-- The sum of the chunk lengths, as `unsigned`, with four bytes for the length word. -/
def fetchSize (datas : List ChunkPos) : UInt32 := datas.foldl (fun size c => size+c.second) 4

/-- The comparison in the assertion is one of `size_t`. -/
def readChunk (size : UInt32) (a : Assembly) (c : ChunkPos) : Except Stop Assembly := do
  assertion (a.pos.toNat+c.second.toNat ≤ size.toNat)
  let read := a.stream.readAt c.first.toNat a.result a.pos.toNat c.second.toNat
  return ⟨read.1,read.2,a.pos+c.second⟩

def readChunks (datas : List ChunkPos) (behind : ℕ → UInt8) (stream : Stream UInt8) :
    Except Stop Assembly := do
  let size := fetchSize datas
  let a ← datas.foldlM (readChunk size) ⟨freshVector size.toNat behind,stream,4⟩
  assertion (a.pos = size)
  return a

/-- One iteration of the loop that tosses the length word; indices are `unsigned`. -/
def tossStep (m : ℕ → UInt8) (i : ℕ) : ℕ → UInt8 :=
  let m := Function.update m (i+0) (m ((i+0+4) % 2^32))
  let m := Function.update m (i+1) (m ((i+1+4) % 2^32))
  let m := Function.update m (i+2) (m ((i+2+4) % 2^32))
  Function.update m (i+3) (m ((i+3+4) % 2^32))

def tossVarlen (m : ℕ → UInt8) (size : ℕ) : ℕ → UInt8 := (List.range (size-4)).foldl tossStep m

/-- The compressed branch of a call: the returned value or the exception, how
`pglz_decompress` ended if it was called, the addresses read in the fetched buffer, and
those that the marker test read in the output vector. -/
structure Decompression where
  outcome : Except Stop (List UInt8)
  exit : Option Exit
  sourceReads : List ℕ
  checkReads : List ℕ

/-- A vector cannot be made to have a negative number of elements; the message is the library's. -/
def lengthError : Stop := .throw (.lengthError "vector")

def corrupted : Stop := .throw (.runtimeError "Corrupted compressed data")

def sourceIndices (log : List Access) : List ℕ := log.filterMap fun a =>
  match a with
  | .source i => some i
  | _ => none

/-- The call with a fresh vector of `n` elements for the output. Where these lie makes no
difference; the address of a vector without elements is NULL. -/
def pglzDecompressInto (source : ℕ → UInt8) (n : ℕ) (behind : ℕ → UInt8) : Decompressed :=
  if n = 0 then pglzDecompressAt source 0 behind else pglzDecompress source (freshVector n behind)

/-- The compressed branch. The header's `rawsize` is read to size the output vector, by
`pglz_decompress`, and to cut the spare kilobyte off again; then the marker is tested in
what is left, or behind it. -/
def decompressValue (vaRawsize : UInt32) (result behind : ℕ → UInt8) : Decompression :=
  let pglzHeader := putLe32 result 0 (vaRawsize <<< 2)
  let rawsize := le32 pglzHeader 4
  if int32 (rawsize+1024) < 0 then ⟨.error lengthError,none,[4,5,6,7],[]⟩
  else
    let run := pglzDecompressInto pglzHeader (rawsize+1024).toNat behind
    let reads := [4,5,6,7] ++ sourceIndices run.state.log
    let decompressed := run.state.dest
    if run.exit = .killed then ⟨.error .killed,run.exit,reads,[]⟩
    else if run.exit = .aborted then ⟨.error .abort,run.exit,reads,[]⟩
    else if int32 rawsize < 0 then ⟨.error lengthError,run.exit,reads,[]⟩
    else if decompressed 0 = 0x63 then
      if decompressed 1 = 0x63 then ⟨.error corrupted,run.exit,reads,[0,1]⟩
      else ⟨.ok (window decompressed 0 rawsize.toNat),run.exit,reads,[0,1]⟩
    else ⟨.ok (window decompressed 0 rawsize.toNat),run.exit,reads,[0]⟩

/-- A call of `fetch_data`: its outcome, the stream after it, the chunk bytes assembled
behind the length word, and what `Decompression` describes. -/
structure Fetch where
  outcome : Except Stop (List UInt8)
  stream : Stream UInt8
  assembled : List UInt8
  exit : Option Exit
  sourceReads : List ℕ
  checkReads : List ℕ

def ToastPointer.fetchData (p : ToastPointer) (toast : ToastMap) (heap : Heap) : Fetch :=
  match toast.positions p.pointer.vaValueid with
  | none => ⟨.error (.throw (.runtimeError "TOAST not found")),toast.file,[],none,[],[]⟩
  | some datas =>
    let size := (fetchSize datas).toNat
    match readChunks datas heap.result toast.file with
    | .error e => ⟨.error e,toast.file,[],none,[],[]⟩
    | .ok a =>
      let assembled := window a.result 4 (size-4)
      if !p.isCompressed then
        ⟨.ok (window (tossVarlen a.result size) 0 (size-4)),a.stream,assembled,none,[],[]⟩
      else
        let d := decompressValue p.pointer.vaRawsize a.result heap.decompressed
        ⟨d.outcome,a.stream,assembled,d.exit,d.sourceReads,d.checkReads⟩

/-! ### The assembling loop -/

def ranges (datas : List ChunkPos) : List (ℕ × ℕ) := datas.map fun c => (c.first.toNat,c.second.toNat)

def payloadSize (datas : List ChunkPos) : ℕ := (datas.map fun c => c.second.toNat).sum

theorem payloadSize_cons (c : ChunkPos) (datas : List ChunkPos) :
    payloadSize (c::datas) = c.second.toNat+payloadSize datas := by
  simp [payloadSize]

theorem sum_ranges (datas : List ChunkPos) :
    ((ranges datas).map Prod.snd).sum = payloadSize datas := by
  rw [ranges,List.map_map,payloadSize]
  rfl

theorem length_gather_ranges (s : Stream UInt8) (datas : List ChunkPos) :
    (s.gather 0 (ranges datas)).1.length = payloadSize datas := by
  rw [length_gather,sum_ranges]

theorem toNat_fetchSize (datas : List ChunkPos) :
    (fetchSize datas).toNat = (4+payloadSize datas) % 2^32 := by
  have h : ∀ size : UInt32, (datas.foldl (fun size c => size+c.second) size).toNat =
      (size.toNat+payloadSize datas) % 2^32 := by
    induction datas with
    | nil =>
      intro size
      have := size.toNat_lt
      simp only [List.foldl_nil,payloadSize,List.map_nil,List.sum_nil]
      omega
    | cons c datas ih =>
      intro size
      rw [List.foldl_cons,ih,payloadSize_cons,UInt32.toNat_add]
      omega
  exact h 4

theorem toNat_fetchSize_of_lt {datas : List ChunkPos} (h : 4+payloadSize datas < 2^32) :
    (fetchSize datas).toNat = 4+payloadSize datas :=
  (toNat_fetchSize datas).trans (Nat.mod_eq_of_lt h)

structure Assembled (datas : List ChunkPos) (start a : Assembly) : Prop where
  pos : a.pos.toNat = start.pos.toNat+payloadSize datas
  stream : a.stream = (start.stream.gather 0 (ranges datas)).2
  bytes : window a.result start.pos.toNat (payloadSize datas) = (start.stream.gather 0 (ranges datas)).1
  frame : ∀ i, i < start.pos.toNat ∨ start.pos.toNat+payloadSize datas ≤ i → a.result i = start.result i

theorem readChunk_fold (size : UInt32) (datas : List ChunkPos) (start : Assembly)
    (hzero : ∀ i, start.pos.toNat ≤ i → i < size.toNat → start.result i = 0)
    (hfit : start.pos.toNat+payloadSize datas ≤ size.toNat) :
    ∃ a, datas.foldlM (readChunk size) start = .ok a ∧ Assembled datas start a := by
  induction datas generalizing start with
  | nil =>
    refine ⟨start,rfl,rfl,rfl,rfl,fun i _ => rfl⟩
  | cons c datas ih =>
    rw [payloadSize_cons] at hfit
    have hlt := size.toNat_lt
    let read := start.stream.readAt c.first.toNat start.result start.pos.toNat c.second.toNat
    have hpos : (start.pos+c.second).toNat = start.pos.toNat+c.second.toNat := by
      exact toNat_add_of_lt (by omega)
    have hout : ∀ i, i < start.pos.toNat ∨ start.pos.toNat+c.second.toNat ≤ i →
        read.1 i = start.result i := fun i hi => readAt_outside _ _ _ hi
    obtain ⟨a,ha,h⟩ := ih ⟨read.1,read.2,start.pos+c.second⟩
      (fun i h₁ h₂ => by
        simp only [hpos] at h₁
        exact (hout i (by omega)).trans (hzero i (by omega) h₂))
      (by simp only [hpos]; omega)
    have hbytes : window a.result start.pos.toNat c.second.toNat =
        window read.1 start.pos.toNat c.second.toNat :=
      window_congr fun i hi => h.frame _ (by simp only [hpos]; omega)
    have hfirst : window read.1 start.pos.toNat c.second.toNat =
        window (start.stream.readAt c.first.toNat (fun _ => 0) 0 c.second.toNat).1 0 c.second.toNat :=
      window_readAt _ _ fun i hi => hzero _ (by omega) (by omega)
    have hstream : read.2 = (start.stream.readAt c.first.toNat (fun _ => 0) 0 c.second.toNat).2 := rfl
    have hrest := h.bytes
    simp only [hpos] at hrest
    refine ⟨a,?_,?_,?_,?_,fun i hi => ?_⟩
    · simp only [List.foldlM_cons,readChunk,assertion]
      rw [if_pos (by omega)]
      exact ha
    · rw [h.pos,hpos,payloadSize_cons]
      omega
    · rw [h.stream]
      rfl
    · rw [payloadSize_cons,window_add,hbytes,hfirst,hrest,hstream]
      rfl
    · rw [payloadSize_cons] at hi
      exact (h.frame i (by simp only [hpos]; omega)).trans (hout i (by omega))

theorem readChunk_cases (size : UInt32) (a : Assembly) (c : ChunkPos) :
    (∃ a', readChunk size a c = .ok a' ∧ a'.pos.toNat = a.pos.toNat+c.second.toNat ∧
      a.pos.toNat+c.second.toNat ≤ size.toNat ∧
      ∀ i, i < a.pos.toNat ∨ a.pos.toNat+c.second.toNat ≤ i → a'.result i = a.result i) ∨
    (readChunk size a c = .error .abort ∧ size.toNat < a.pos.toNat+c.second.toNat) := by
  simp only [readChunk,assertion]
  split
  · rename_i hfit
    have hlt := size.toNat_lt
    exact .inl ⟨_,rfl,toNat_add_of_lt (by omega),hfit,fun i hi => readAt_outside _ _ _ hi⟩
  · rename_i hfit
    exact .inr ⟨rfl,by omega⟩

theorem readChunk_overflow (size : UInt32) (datas : List ChunkPos) (start : Assembly)
    (hpos : start.pos.toNat ≤ size.toNat ∨ datas ≠ [])
    (hfit : size.toNat < start.pos.toNat+payloadSize datas) :
    datas.foldlM (readChunk size) start = .error .abort := by
  induction datas generalizing start with
  | nil =>
    simp only [payloadSize,List.map_nil,List.sum_nil] at hfit
    simp only [ne_eq,not_true_eq_false,or_false] at hpos
    omega
  | cons c datas ih =>
    rw [payloadSize_cons] at hfit
    rw [List.foldlM_cons]
    rcases readChunk_cases size start c with ⟨a,hc,hnext,hle,-⟩ | ⟨hc,-⟩
    · rw [hc]
      exact ih a (.inl (by omega)) (by omega)
    · rw [hc]
      rfl

/-- The vector `result` when the bytes `l` have been fetched into it. -/
def fetched (l : List UInt8) (behind : ℕ → UInt8) : ℕ → UInt8 :=
  fun i => if i < 4 then 0 else if i < 4+l.length then l.getD (i-4) 0 else behind i

theorem window_fetched (l : List UInt8) (behind : ℕ → UInt8) :
    window (fetched l behind) 4 l.length = l := by
  apply List.ext_getElem (by simp)
  intro i h₁ h₂
  simp [fetched,h₂]

theorem readChunks_of_fits {datas : List ChunkPos} (h : 4+payloadSize datas < 2^32)
    (behind : ℕ → UInt8) (stream : Stream UInt8) :
    readChunks datas behind stream =
      .ok ⟨fetched (stream.gather 0 (ranges datas)).1 behind,(stream.gather 0 (ranges datas)).2,
        fetchSize datas⟩ := by
  have hsize := toNat_fetchSize_of_lt h
  have h₄ : (4 : UInt32).toNat = 4 := rfl
  have hlen := length_gather_ranges stream datas
  obtain ⟨a,ha,hpos,hstream,hbytes,hframe⟩ := readChunk_fold (fetchSize datas) datas
    ⟨freshVector (fetchSize datas).toNat behind,stream,4⟩
    (fun i _ hi => by simp [freshVector,hi]) (by rw [hsize,h₄])
  simp only [h₄] at hpos hstream hbytes hframe
  have hend : a.pos = fetchSize datas := by
    apply UInt32.toNat_inj.mp
    rw [hpos,hsize]
  have hresult : a.result = fetched (stream.gather 0 (ranges datas)).1 behind := by
    funext i
    rcases Nat.lt_or_ge i 4 with hi | hi
    · rw [hframe i (.inl hi)]
      simp [freshVector,fetched,hi,hsize,Nat.lt_add_right _ hi]
    · rcases Nat.lt_or_ge i (4+payloadSize datas) with hi' | hi'
      · have hw := hbytes.trans (window_fetched (stream.gather 0 (ranges datas)).1 behind).symm
        rw [hlen] at hw
        have hc := window_eq_iff.mp hw (i-4) (by omega)
        rwa [Nat.add_sub_cancel' hi] at hc
      · rw [hframe i (.inr hi'),freshVector,fetched,hlen,if_neg (by omega),if_neg (by omega),
          if_neg (by omega)]
  rw [readChunks]
  simp only [ha,bind,Except.bind,assertion,if_pos hend]
  rw [← hresult,← hstream,← hend]
  rfl

theorem readChunks_of_overflow {datas : List ChunkPos} (h : 2^32 ≤ 4+payloadSize datas)
    (behind : ℕ → UInt8) (stream : Stream UInt8) :
    readChunks datas behind stream = .error .abort := by
  have hsize := toNat_fetchSize datas
  have hlt := (fetchSize datas).toNat_lt
  have hne : datas ≠ [] := by
    rintro rfl
    simp [payloadSize] at h
  have ho := readChunk_overflow (fetchSize datas) datas
    ⟨freshVector (fetchSize datas).toNat behind,stream,4⟩ (.inr hne)
    (by rw [show (4 : UInt32).toNat = 4 from rfl]; omega)
  rw [readChunks]
  simp only [ho,bind,Except.bind]

/-! ### Tossing the length word -/

theorem tossStep_self (m : ℕ → UInt8) (i : ℕ) : tossStep m i i = m ((i+4) % 2^32) := by
  simp [tossStep]

theorem tossStep_outside (m : ℕ → UInt8) {i j : ℕ} (h : j < i ∨ i+4 ≤ j) : tossStep m i j = m j := by
  have h₀ : j ≠ i := by omega
  have h₁ : j ≠ i+1 := by omega
  have h₂ : j ≠ i+2 := by omega
  have h₃ : j ≠ i+3 := by omega
  simp [tossStep,h₀,h₁,h₂,h₃]

/-- After `k` iterations the first `k` cells have moved; the three cells above them are
still to be overwritten, and nothing from `k+3` on has been touched. -/
theorem tossStep_fold (m : ℕ → UInt8) (k : ℕ) :
    (∀ j < k, j+4 < 2^32 → (List.range k).foldl tossStep m j = m (j+4)) ∧
      ∀ j, k+3 ≤ j → (List.range k).foldl tossStep m j = m j := by
  induction k with
  | zero => exact ⟨fun j hj => absurd hj (Nat.not_lt_zero j),fun _ _ => rfl⟩
  | succ k ih =>
    rw [List.range_succ,List.foldl_append]
    simp only [List.foldl_cons,List.foldl_nil]
    refine ⟨fun j hj hw => ?_,fun j hj => ?_⟩
    · rcases Nat.lt_succ_iff_lt_or_eq.mp hj with hj | rfl
      · rw [tossStep_outside _ (.inl hj),ih.1 j hj hw]
      · rw [tossStep_self,Nat.mod_eq_of_lt hw,ih.2 _ (by omega)]
    · rw [tossStep_outside _ (.inr (by omega)),ih.2 j (by omega)]

theorem window_tossVarlen (m : ℕ → UInt8) {size : ℕ} (h : size < 2^32) :
    window (tossVarlen m size) 0 (size-4) = window m 4 (size-4) :=
  window_congr fun i hi => by
    rw [Nat.zero_add,tossVarlen,(tossStep_fold m (size-4)).1 i hi (by omega),Nat.add_comm]

/-! ### The compressed branch -/

theorem le32_putLe32_rawsize (m : ℕ → UInt8) (w : UInt32) : le32 (putLe32 m 0 w) 4 = le32 m 4 :=
  le32_congr fun _ _ => putLe32_of_le m w (by omega)

theorem toNat_add_1024_eq_zero_iff {w : UInt32} : (w+1024).toNat = 0 ↔ int32 w = -1024 := by
  have hlt := w.toNat_lt
  have hadd : (w+1024).toNat = (w.toNat+1024) % 2^32 := UInt32.toNat_add w 1024
  rw [hadd,int32_eq]
  split_ifs with hsign
  · exact iff_of_false (by omega) id
  · omega

/-- Wherever the elements of the output vector lie, the call is the one on offsets. -/
theorem pglzDecompressAt_of_vector {source : ℕ → UInt8} {n dest : ℕ} {memory : ℕ → UInt8}
    (hn : (n : ℤ) = int32 (le32 source 4)+1024) (hpos : n ≠ 0) (hmapped : 4096 ≤ dest)
    (hroom : (dest : ℤ)+n ≤ 2^64-4096) (hfresh : ∀ i < n, memory (dest+i) = 0) :
    pglzDecompressAt source dest memory =
      let run := pglzDecompressInto source n fun i => memory (dest+i)
      ⟨run.exit,run.state.shift dest memory⟩ := by
  have hvector : freshVector n (fun i => memory (dest+i)) = fun i => memory (dest+i) := by
    funext i
    rw [freshVector]
    split
    · rename_i hi
      rw [hfresh i hi]
    · rfl
  rw [pglzDecompressInto,if_neg hpos,hvector]
  exact pglzDecompressAt_of_area ⟨hmapped,by omega,by omega⟩ memory

theorem pglzDecompress_ne_killed (source dest : ℕ → UInt8) : (pglzDecompress source dest).exit ≠ .killed := by
  simp only [pglzDecompress]
  split
  · simp
  · split <;> simp

theorem decompressValue_of_area {result : ℕ → UInt8} (h : int32 (le32 result 4) ≠ -1024)
    (vaRawsize : UInt32) (behind : ℕ → UInt8) :
    decompressValue vaRawsize result behind =
      let datum := putLe32 result 0 (vaRawsize <<< 2)
      let rawsize := le32 result 4
      if int32 (rawsize+1024) < 0 then ⟨.error lengthError,none,[4,5,6,7],[]⟩
      else
        let run := pglzDecompress datum (freshVector (rawsize+1024).toNat behind)
        let reads := [4,5,6,7] ++ sourceIndices run.state.log
        let decompressed := run.state.dest
        if run.exit = .aborted then ⟨.error .abort,run.exit,reads,[]⟩
        else if int32 rawsize < 0 then ⟨.error lengthError,run.exit,reads,[]⟩
        else if decompressed 0 = 0x63 then
          if decompressed 1 = 0x63 then ⟨.error corrupted,run.exit,reads,[0,1]⟩
          else ⟨.ok (window decompressed 0 rawsize.toNat),run.exit,reads,[0,1]⟩
        else ⟨.ok (window decompressed 0 rawsize.toNat),run.exit,reads,[0]⟩ := by
  have hn : (le32 result 4+1024).toNat ≠ 0 := fun hn => h (toNat_add_1024_eq_zero_iff.mp hn)
  simp only [decompressValue,le32_putLe32_rawsize,pglzDecompressInto,if_neg hn,
    if_neg (pglzDecompress_ne_killed _ _)]

/-- A stored size of -1024 makes the vector empty. -/
theorem decompressValue_null {result : ℕ → UInt8} (h : int32 (le32 result 4) = -1024)
    (vaRawsize : UInt32) (behind : ℕ → UInt8) :
    decompressValue vaRawsize result behind =
      let run := pglzDecompressAt (putLe32 result 0 (vaRawsize <<< 2)) 0 behind
      let reads := [4,5,6,7] ++ sourceIndices run.state.log
      if 9 < varsize (vaRawsize <<< 2) then ⟨.error .killed,run.exit,reads,[]⟩
      else if 7 < varsize (vaRawsize <<< 2) then ⟨.error lengthError,run.exit,reads,[]⟩
      else ⟨.error .abort,run.exit,reads,[]⟩ := by
  have hvec : ¬ int32 (le32 result 4+1024) < 0 := by
    rw [int32_of_lt (by rw [toNat_add_1024_eq_zero_iff.mpr h]; omega)]
    omega
  simp only [decompressValue,le32_putLe32_rawsize,if_neg hvec,pglzDecompressInto,
    if_pos (toNat_add_1024_eq_zero_iff.mpr h)]
  rw [pglzDecompressAt_null (by rw [le32_putLe32_rawsize]; omega),le32_putLe32]
  dsimp only
  generalize varsize (vaRawsize <<< 2) = srcend
  by_cases h₉ : 9 < srcend
  · simp only [if_pos h₉,if_true]
  · by_cases h₈ : 8 < srcend
    · simp only [if_neg h₉,if_pos h₈,reduceCtorEq,if_false,if_pos (show 7 < srcend by omega),
        if_pos (show int32 (le32 result 4) < 0 by omega)]
    · by_cases heq : srcend = 8
      · simp only [heq,if_true,reduceCtorEq,if_false,if_pos (show int32 (le32 result 4) < 0 by omega),
          Nat.lt_irrefl,Nat.reduceLT]
      · simp only [if_neg h₉,if_neg h₈,if_neg heq,reduceCtorEq,if_false,if_true,
          if_neg (show ¬ 7 < srcend by omega)]

/-! ### A call, by what the map says about the value -/

section Calls

variable {p : ToastPointer} {toast : ToastMap} {heap : Heap} {datas : List ChunkPos}

theorem fetchData_unknown (h : toast.positions p.pointer.vaValueid = none) :
    p.fetchData toast heap =
      ⟨.error (.throw (.runtimeError "TOAST not found")),toast.file,[],none,[],[]⟩ := by
  rw [ToastPointer.fetchData,h]

theorem fetchData_overflow (h : toast.positions p.pointer.vaValueid = some datas)
    (hfit : 2^32 ≤ 4+payloadSize datas) :
    p.fetchData toast heap = ⟨.error .abort,toast.file,[],none,[],[]⟩ := by
  simp only [ToastPointer.fetchData,h,readChunks_of_overflow hfit]

theorem fetchData_plain (h : toast.positions p.pointer.vaValueid = some datas)
    (hfit : 4+payloadSize datas < 2^32) (hc : p.isCompressed = false) :
    p.fetchData toast heap =
      ⟨.ok (toast.file.gather 0 (ranges datas)).1,(toast.file.gather 0 (ranges datas)).2,
        (toast.file.gather 0 (ranges datas)).1,none,[],[]⟩ := by
  have hsize := toNat_fetchSize_of_lt hfit
  have hw := window_fetched (toast.file.gather 0 (ranges datas)).1 heap.result
  rw [length_gather_ranges] at hw
  simp only [ToastPointer.fetchData,h,readChunks_of_fits hfit,hc,Bool.not_false,if_true,hsize]
  rw [window_tossVarlen _ (by omega),Nat.add_sub_cancel_left,hw]

theorem fetchData_compressed (h : toast.positions p.pointer.vaValueid = some datas)
    (hfit : 4+payloadSize datas < 2^32) (hc : p.isCompressed = true) :
    p.fetchData toast heap =
      let g := toast.file.gather 0 (ranges datas)
      let d := decompressValue p.pointer.vaRawsize (fetched g.1 heap.result) heap.decompressed
      ⟨d.outcome,g.2,g.1,d.exit,d.sourceReads,d.checkReads⟩ := by
  have hsize := toNat_fetchSize_of_lt hfit
  have hw := window_fetched (toast.file.gather 0 (ranges datas)).1 heap.result
  rw [length_gather_ranges] at hw
  simp only [ToastPointer.fetchData,h,readChunks_of_fits hfit,hc,Bool.not_true,Bool.false_eq_true,
    if_false,hsize,Nat.add_sub_cancel_left,hw]

end Calls

end PageDumper
