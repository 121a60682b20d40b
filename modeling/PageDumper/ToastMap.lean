import PageDumper.Tuple
import PageDumper.Lib.Reader
import PageDumper.Lib.RowTable

/-! Page-wise reading of a file and `ToastMap::fill_toast_map`, which records for every
chunk of the TOAST table where its bytes lie. The page buffer is a memory of which only the
first `PAGE_SIZE` cells are filled from the file; memory is unlimited. -/
namespace PageDumper
open Memory Words Reader RowTable

/-- `_ChunkPos`: start and length of a chunk in the file. Both components are `size_t`, but
the only values ever stored there are the `unsigned` ones of `fill_toast_map`. -/
structure ChunkPos where
  first : UInt32
  second : UInt32
  deriving DecidableEq

instance : Inhabited ChunkPos := ⟨⟨0,0⟩⟩

abbrev Positions := Table UInt32 ChunkPos

structure ToastMap where
  positions : Positions
  file : Stream UInt8

def readPage (stream : Stream UInt8) (pos : UInt32) (buffer : ℕ → UInt8) :
    (ℕ → UInt8) × Stream UInt8 :=
  stream.readAt (pos*UInt32.ofNat PAGE_SIZE).toNat buffer 0 PAGE_SIZE

/-- The member `end` is called `stop` here. -/
structure PageIterator where
  stream : Stream UInt8
  it : UInt32
  stop : UInt32

namespace PageIterator

/-- The constructor; `tellg` after seeking to the end gives the file size as `unsigned`. -/
def make (stream : Stream UInt8) : Except Stop PageIterator := do
  assertion (stream.failbit = false)
  let stream := stream.seekg stream.file.size
  let size := UInt32.ofNat stream.pos
  let stream := stream.seekg 0
  let stop := size/UInt32.ofNat PAGE_SIZE
  if size-stop*UInt32.ofNat PAGE_SIZE ≠ 0 then
    .error (.throw (.logicError "Given file is not aligned to 8192 bytes\n"))
  else return ⟨stream,0,stop⟩

def next (p : PageIterator) (buffer : ℕ → UInt8) : Option ((ℕ → UInt8) × PageIterator) :=
  if p.stop ≤ p.it then none
  else
    let page := readPage p.stream p.it buffer
    some (page.1,{ p with stream := page.2, it := p.it+1 })

end PageIterator

/-- `positions[chunk_id][chunk_seq] = c` with the preceding `resize`, whose argument
`chunk_seq+1` is computed in `unsigned`. -/
def recordChunk (positions : Positions) (chunkId chunkSeq : UInt32) (c : ChunkPos) :
    Except Stop Positions :=
  let data := (positions chunkId).getD []
  let data := if data.length ≤ chunkSeq.toNat then resize default data (chunkSeq+1).toNat else data
  if chunkSeq.toNat < data.length then
    .ok (Function.update positions chunkId (some (data.set chunkSeq.toNat c)))
  else .error .outOfRange

def fillItem (page : ℕ → UInt8) (pagePos : UInt32) (positions : Positions) (i : ℕ) :
    Except Stop Positions := do
  let itemid := pdLinp page i
  if itemid.admitted then
    let itemheader := getItemHeader page itemid
    let itemdata := getItemData page itemid
    let pos := 0
    assertion (itemheader.hasAttribute 0)
    assertion (itemheader.hasAttribute 1)
    assertion (itemheader.hasAttribute 2)
    let chunkId := itemdata.getUnsigned pos
    let pos := pos+itemdata.getUnsignedSize pos
    let chunkSeq := itemdata.getUnsigned pos
    let pos := pos+itemdata.getUnsignedSize pos
    let chunkData := itemdata.getVarlena pos
    recordChunk positions chunkId chunkSeq
      { first := UInt32.ofNat PAGE_SIZE*pagePos+UInt32.ofNat itemid.lpOff+itemheader.tHoff.toUInt32+
          8+chunkData.dataOffset
        second := chunkData.size-chunkData.dataOffset }
  else return positions

/-- The loop over the pages; the first argument is fuel. -/
def fillPages : ℕ → PageIterator → (ℕ → UInt8) → UInt32 → Positions →
    Except Stop (Positions × PageIterator)
  | 0, it, _, _, positions => .ok (positions,it)
  | fuel+1, it, buffer, pagePos, positions =>
    match it.next buffer with
    | none => .ok (positions,it)
    | some each => do
      let positions ← forLinp each.1 (fillItem each.1 pagePos) positions
      fillPages fuel each.2 each.1 (pagePos+1) positions

def fillToastMap (buffer : ℕ → UInt8) (toast : ToastMap) : Except Stop ToastMap := do
  let it ← PageIterator.make toast.file
  let filled ← fillPages it.stop.toNat it buffer 0 toast.positions
  return ⟨filled.1,filled.2.stream⟩

namespace PageIterator

theorem toNat_size_div (size : UInt32) :
    (size/UInt32.ofNat PAGE_SIZE).toNat = size.toNat/8192 := by
  rw [UInt32.toNat_div]
  rfl

theorem sub_pages_eq_zero_iff (size : UInt32) :
    size-size/UInt32.ofNat PAGE_SIZE*UInt32.ofNat PAGE_SIZE = 0 ↔ PAGE_SIZE ∣ size.toNat := by
  have hdiv := toNat_size_div size
  have hlt := size.toNat_lt
  have hmul : (size/UInt32.ofNat PAGE_SIZE*UInt32.ofNat PAGE_SIZE).toNat = size.toNat/8192*8192 := by
    rw [UInt32.toNat_mul,hdiv,show (UInt32.ofNat PAGE_SIZE).toNat = 8192 from rfl]
    omega
  rw [← UInt32.toNat_inj,UInt32.toNat_sub_of_le _ _ (by rw [UInt32.le_iff_toNat_le]; omega),hmul,
    UInt32.toNat_zero]
  simp only [PAGE_SIZE]
  omega

theorem make_eq {stream : Stream UInt8} (hs : stream.failbit = false)
    (hsize : stream.file.size < 2^32) : make stream =
      if PAGE_SIZE ∣ stream.file.size then
        .ok ⟨{ stream with pos := 0 },0,UInt32.ofNat (stream.file.size/PAGE_SIZE)⟩
      else .error (.throw (.logicError "Given file is not aligned to 8192 bytes\n")) := by
  have hn : (UInt32.ofNat stream.file.size).toNat = stream.file.size :=
    UInt32.toNat_ofNat_of_lt' hsize
  have hdiv := toNat_size_div (UInt32.ofNat stream.file.size)
  rw [hn] at hdiv
  have hzero := sub_pages_eq_zero_iff (UInt32.ofNat stream.file.size)
  rw [hn] at hzero
  have hstop : UInt32.ofNat stream.file.size/UInt32.ofNat PAGE_SIZE =
      UInt32.ofNat (stream.file.size/PAGE_SIZE) := by
    apply UInt32.toNat_inj.mp
    rw [hdiv,UInt32.toNat_ofNat']
    simp only [PAGE_SIZE]
    omega
  simp only [make,assertion,hs,Stream.seekg,if_true,bind,Except.bind,Bool.false_eq_true,if_false,
    ne_eq,hzero]
  simp only [hstop,ite_not]
  rfl

end PageIterator

theorem recordChunk_eq (positions : Positions) (chunkId : UInt32) {chunkSeq : UInt32} (c : ChunkPos)
    (h : chunkSeq.toNat < 2^32-1) :
    recordChunk positions chunkId chunkSeq c = .ok (put positions chunkId chunkSeq.toNat c) := by
  have hs : (chunkSeq+1).toNat = chunkSeq.toNat+1 := toNat_add_one (by omega)
  have hlt := lt_length_rowFor positions chunkId chunkSeq.toNat
  simp only [rowFor] at hlt
  simp only [recordChunk,hs,if_pos hlt]
  rfl

/-- A sequence number that does not fit a vector of 32-bit length is stored out of range. -/
theorem recordChunk_last (positions : Positions) (chunkId : UInt32) (c : ChunkPos)
    (h : ((positions chunkId).getD []).length ≤ 2^32-1) :
    recordChunk positions chunkId 0xFFFFFFFF c = .error .outOfRange := by
  have h₁ : (0xFFFFFFFF : UInt32).toNat = 2^32-1 := rfl
  simp only [recordChunk,h₁,if_pos h]
  rw [if_neg]
  simp [resize]

def pageOf (f : File UInt8) (k : ℕ) : ℕ → UInt8 := fun i => f.byte (PAGE_SIZE*k+i)

theorem readPage_inside {stream : Stream UInt8} (hgood : stream.failbit = false) (pos : UInt32)
    (hin : PAGE_SIZE*(pos.toNat+1) ≤ stream.file.size) (hsmall : PAGE_SIZE*pos.toNat < 2^32)
    (buffer : ℕ → UInt8) :
    (readPage stream pos buffer).1 = blit buffer 0 PAGE_SIZE (pageOf stream.file pos.toNat) ∧
      (readPage stream pos buffer).2.file = stream.file ∧
      (readPage stream pos buffer).2.failbit = false := by
  have hpos : (pos*UInt32.ofNat PAGE_SIZE).toNat = PAGE_SIZE*pos.toNat := by
    rw [UInt32.toNat_mul,show (UInt32.ofNat PAGE_SIZE).toNat = 8192 from rfl]
    simp only [PAGE_SIZE] at hsmall ⊢
    omega
  have hinside : stream.file.Inside (PAGE_SIZE*pos.toNat) PAGE_SIZE := by
    right
    simp only [PAGE_SIZE] at hin ⊢
    omega
  refine ⟨?_,by rw [readPage,readAt_file],?_⟩
  · rw [readPage,hpos,readAt_inside hgood hinside]
    rfl
  · rw [readPage,hpos,readAt_failbit hgood]
    simp [hinside]

namespace PageIterator

/-- The iterator reads a working stream, and all its pages lie inside the file. -/
structure Sound (f : File UInt8) (it : PageIterator) : Prop where
  file : it.stream.file = f
  good : it.stream.failbit = false
  inside : PAGE_SIZE*it.stop.toNat ≤ f.size
  small : PAGE_SIZE*it.stop.toNat < 2^32

theorem sound_make {stream : Stream UInt8} {it : PageIterator} (h : make stream = .ok it) :
    it.Sound stream.file := by
  cases hs : stream.failbit with
  | true => simp [make,assertion,hs,bind,Except.bind] at h
  | false =>
    have hle := Nat.mod_le stream.file.size (2^32)
    have hlt := Nat.mod_lt stream.file.size (show 0 < 2^32 by omega)
    have hstop : (UInt32.ofNat stream.file.size/UInt32.ofNat PAGE_SIZE).toNat =
        stream.file.size % 2^32/8192 := by
      rw [toNat_size_div,UInt32.toNat_ofNat']
    simp only [make,assertion,hs,Stream.seekg,if_true,bind,Except.bind,Bool.false_eq_true,if_false] at h
    split at h
    · cases h
    · cases h
      refine ⟨rfl,rfl,?_,?_⟩ <;> simp only [PAGE_SIZE] at hstop ⊢ <;> omega

theorem Sound.page_inside {f : File UInt8} {it : PageIterator} (h : it.Sound f) (hlt : it.it < it.stop) :
    PAGE_SIZE*(it.it.toNat+1) ≤ f.size ∧ PAGE_SIZE*(it.it.toNat+1) < 2^32 := by
  obtain ⟨-,-,hin,hsmall⟩ := h
  have hle : PAGE_SIZE*(it.it.toNat+1) ≤ PAGE_SIZE*it.stop.toNat :=
    Nat.mul_le_mul_left _ (UInt32.lt_iff_toNat_lt.mp hlt)
  omega

theorem Sound.next {f : File UInt8} {it : PageIterator} (h : it.Sound f) (hlt : it.it < it.stop)
    (buffer : ℕ → UInt8) :
    ∃ it', it.next buffer = some (blit buffer 0 PAGE_SIZE (pageOf f it.it.toNat),it') ∧
      it'.Sound f ∧ it'.it.toNat = it.it.toNat+1 ∧ it'.stop = it.stop := by
  obtain ⟨hpin,hpsmall⟩ := h.page_inside hlt
  obtain ⟨hfile,hgood,hin,hsmall⟩ := h
  have hltn := UInt32.lt_iff_toNat_lt.mp hlt
  have hmax := it.stop.toNat_lt
  have hsucc : (it.it+1).toNat = it.it.toNat+1 := toNat_add_one (by omega)
  obtain ⟨hpage,hfile',hgood'⟩ := readPage_inside hgood it.it (by rw [hfile]; exact hpin)
    (by rw [Nat.mul_add] at hpsmall; omega) buffer
  rw [hfile] at hpage hfile'
  refine ⟨{ it with stream := (readPage it.stream it.it buffer).2, it := it.it+1 },
    ?_,⟨hfile',hgood',hin,hsmall⟩,hsucc,rfl⟩
  rw [PageIterator.next,if_neg (by rw [UInt32.le_iff_toNat_le]; omega)]
  simp only [hpage]

end PageIterator

theorem fillPages_sound {f : File UInt8} (fuel : ℕ) {it it' : PageIterator} (h : it.Sound f)
    (hf : it.stop.toNat ≤ it.it.toNat+fuel) (buffer : ℕ → UInt8) (pagePos : UInt32)
    {positions positions' : Positions}
    (hok : fillPages fuel it buffer pagePos positions = .ok (positions',it')) :
    it'.Sound f ∧ it'.stop ≤ it'.it := by
  induction fuel generalizing it buffer pagePos positions with
  | zero =>
    cases hok
    exact ⟨h,by rw [UInt32.le_iff_toNat_le]; omega⟩
  | succ fuel ih =>
    by_cases hlt : it.it < it.stop
    · obtain ⟨it₁,hnext,hs,hit,hstop⟩ := h.next hlt buffer
      simp only [fillPages,hnext,bind,Except.bind] at hok
      split at hok
      · cases hok
      · exact ih hs (by rw [hstop]; omega) _ _ hok
    · have hle : it.stop ≤ it.it := by
        rw [UInt32.lt_iff_toNat_lt] at hlt
        rw [UInt32.le_iff_toNat_le]
        omega
      simp only [fillPages,PageIterator.next,if_pos hle] at hok
      cases hok
      exact ⟨h,hle⟩

theorem fillToastMap_stream {buffer : ℕ → UInt8} {toast toast' : ToastMap}
    (h : fillToastMap buffer toast = .ok toast') :
    toast'.file.file = toast.file.file ∧ toast'.file.failbit = false := by
  simp only [fillToastMap,bind,Except.bind] at h
  split at h
  · cases h
  · rename_i it hit
    split at h
    · cases h
    · rename_i filled hfilled
      cases h
      obtain ⟨positions,it'⟩ := filled
      have hs := (fillPages_sound _ (PageIterator.sound_make hit) (by omega) _ _ hfilled).1
      exact ⟨hs.file,hs.good⟩

end PageDumper
