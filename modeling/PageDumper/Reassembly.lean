import PageDumper.ToastImage
import PageDumper.ToastPointer
import Mathlib.Tactic.IntervalCases

/-! Reassembly of TOAST values. A toast file image assigns a chunk to every slot that holds
one; a value is the sequence of its payloads. After `fill_toast_map` the map stores exactly
the slots' records, and `fetch_data` returns the value, in whatever slots its chunks are. -/
namespace PageDumper
open Memory Words Reader RowTable

def Slot (f : File UInt8) (k i : ℕ) : Prop :=
  k < f.size/PAGE_SIZE ∧ i < pageGetMaxOffsetNumber (pageOf f k) ∧
    (pdLinp (pageOf f k) i).admitted = true

instance (f : File UInt8) (k i : ℕ) : Decidable (Slot f k i) :=
  inferInstanceAs (Decidable (_ ∧ _ ∧ _))

structure ToastImage where
  file : File UInt8
  aligned : PAGE_SIZE ∣ file.size
  small : file.size < 2^32
  sane : ∀ k < file.size/PAGE_SIZE, LowerSane (pageOf file k)
  chunk : ℕ → ℕ → Chunk
  carries : ∀ k i, Slot file k i →
    CarriesChunk (pageOf file k) (pdLinp (pageOf file k) i) (chunk k i)
  seq_lt : ∀ k i, Slot file k i → (chunk k i).chunkSeq.toNat < 2^32-1
  distinct : ∀ k i k' i', Slot file k i → Slot file k' i' →
    (chunk k i).chunkId = (chunk k' i').chunkId → (chunk k i).chunkSeq = (chunk k' i').chunkSeq →
    k = k' ∧ i = i'

namespace ToastImage

variable (img : ToastImage)

def pages : ℕ := img.file.size/PAGE_SIZE

def record (k i : ℕ) : UInt32 × ℕ × ChunkPos :=
  ((img.chunk k i).chunkId,(img.chunk k i).chunkSeq.toNat,
    chunkEntry k (pageOf img.file k) (pdLinp (pageOf img.file k) i) (img.chunk k i))

def recordsBefore (k i : ℕ) : Set (UInt32 × ℕ × ChunkPos) :=
  {r | ∃ k' i', Slot img.file k' i' ∧ (k' < k ∨ k' = k ∧ i' < i) ∧ r = img.record k' i'}

variable {img}

theorem mem_recordsBefore {k i k' i' : ℕ} (h : Slot img.file k' i') (hlt : k' < k ∨ k' = k ∧ i' < i) :
    img.record k' i' ∈ img.recordsBefore k i := ⟨k',i',h,hlt,rfl⟩

theorem recordsBefore_zero : img.recordsBefore 0 0 = ∅ := by
  ext r
  simp [recordsBefore]

theorem recordsBefore_succ_slot {k i : ℕ} (h : Slot img.file k i) :
    img.recordsBefore k (i+1) = insert (img.record k i) (img.recordsBefore k i) := by
  ext r
  constructor
  · rintro ⟨k',i',hs,hlt,rfl⟩
    by_cases he : k' = k ∧ i' = i
    · rw [he.1,he.2]
      exact Set.mem_insert _ _
    · exact Set.mem_insert_of_mem _ (mem_recordsBefore hs (by omega))
  · intro hr
    rcases Set.mem_insert_iff.mp hr with rfl | ⟨k',i',hs,hlt,rfl⟩
    · exact mem_recordsBefore h (by omega)
    · exact mem_recordsBefore hs (by omega)

theorem recordsBefore_succ_of_not {k i : ℕ} (h : ¬ Slot img.file k i) :
    img.recordsBefore k (i+1) = img.recordsBefore k i := by
  ext r
  constructor
  · rintro ⟨k',i',hs,hlt,rfl⟩
    have hne : ¬ (k' = k ∧ i' = i) := by
      rintro ⟨rfl,rfl⟩
      exact h hs
    exact mem_recordsBefore hs (by omega)
  · rintro ⟨k',i',hs,hlt,rfl⟩
    exact mem_recordsBefore hs (by omega)

theorem recordsBefore_page {k : ℕ} :
    img.recordsBefore k (pageGetMaxOffsetNumber (pageOf img.file k)) = img.recordsBefore (k+1) 0 := by
  ext r
  constructor
  · rintro ⟨k',i',hs,hlt,rfl⟩
    exact mem_recordsBefore hs (by omega)
  · rintro ⟨k',i',hs,hlt,rfl⟩
    refine mem_recordsBefore hs ?_
    rcases Nat.lt_or_ge k' k with h | h
    · exact .inl h
    · obtain rfl : k' = k := by omega
      exact .inr ⟨rfl,hs.2.1⟩

theorem record_fresh {k i : ℕ} (h : Slot img.file k i) (c : ChunkPos) :
    ((img.chunk k i).chunkId,(img.chunk k i).chunkSeq.toNat,c) ∉ img.recordsBefore k i := by
  rintro ⟨k',i',hs,hlt,he⟩
  simp only [record,Prod.mk.injEq,UInt32.toNat_inj] at he
  have := img.distinct k i k' i' h hs he.1 he.2.1
  omega

theorem fillItem_stores {k i : ℕ} {page : ℕ → UInt8} {pagePos : UInt32} {positions : Positions}
    (hk : k < img.pages) (hpage : SamePage (pageOf img.file k) page) (hpos : pagePos.toNat = k)
    (hi : i < pageGetMaxOffsetNumber (pageOf img.file k))
    (hst : Stores positions (img.recordsBefore k i)) :
    ∃ positions', fillItem page pagePos positions i = .ok positions' ∧
      Stores positions' (img.recordsBefore k (i+1)) := by
  have hlinp := hpage.pdLinp (img.sane k hk) hi
  cases hadm : (pdLinp page i).admitted with
  | false =>
    have hn : ¬ Slot img.file k i := by
      rintro ⟨-,-,h⟩
      rw [hlinp,hadm] at h
      cases h
    rw [recordsBefore_succ_of_not hn]
    exact ⟨positions,fillItem_of_not_admitted hadm pagePos positions,hst⟩
  | true =>
    have hs : Slot img.file k i := ⟨hk,hi,by rw [hlinp]; exact hadm⟩
    obtain ⟨hc,hhoff⟩ := hpage.carriesChunk hs.2.2 (img.carries k i hs)
    rw [hlinp] at hc hhoff
    have hput := fillItem_of_carries hadm hc (img.seq_lt k i hs) hpos positions
    have hentry : chunkEntry k page (pdLinp page i) (img.chunk k i) =
        chunkEntry k (pageOf img.file k) (pdLinp (pageOf img.file k) i) (img.chunk k i) := by
      rw [hlinp,chunkEntry,chunkEntry,chunkPlace,chunkPlace,hhoff]
    rw [hentry] at hput
    rw [recordsBefore_succ_slot hs]
    exact ⟨_,hput,hst.put _ fun w => record_fresh hs w⟩

theorem samePage_blit (f : File UInt8) (k : ℕ) (buffer : ℕ → UInt8) :
    SamePage (pageOf f k) (blit buffer 0 PAGE_SIZE (pageOf f k)) := by
  intro i hi
  have h := blit_add buffer 0 (pageOf f k) hi
  rw [Nat.zero_add] at h
  exact h.symm

theorem fillPages_stores (img : ToastImage) (fuel : ℕ) {it : PageIterator} (hs : it.Sound img.file)
    (hstop : it.stop.toNat = img.pages) (hf : it.it.toNat+fuel = img.pages) (buffer : ℕ → UInt8)
    (pagePos : UInt32) (hpos : pagePos.toNat = it.it.toNat) (positions : Positions)
    (hst : Stores positions (img.recordsBefore it.it.toNat 0)) :
    ∃ positions' it', fillPages fuel it buffer pagePos positions = .ok (positions',it') ∧
      Stores positions' (img.recordsBefore img.pages 0) := by
  induction fuel generalizing it buffer pagePos positions with
  | zero =>
    rw [Nat.add_zero] at hf
    rw [hf] at hst
    exact ⟨positions,it,rfl,hst⟩
  | succ fuel ih =>
    have hk : it.it.toNat < img.pages := by omega
    obtain ⟨it₁,hnext,hs₁,hit,hstop₁⟩ := hs.next
      (by rw [UInt32.lt_iff_toNat_lt,hstop]; exact hk) buffer
    have hpage := samePage_blit img.file it.it.toNat buffer
    have hsane := hpage.lowerSane.mp (img.sane _ hk)
    have hmax := hpage.pageGetMaxOffsetNumber
    obtain ⟨positions₁,hloop,hst₁⟩ := forLinp_invariant hsane
      (I := fun i positions => Stores positions (img.recordsBefore it.it.toNat i)) hst
      fun i hi positions hst => fillItem_stores hk hpage hpos (by rw [hmax]; exact hi) hst
    rw [← hmax,recordsBefore_page,← hit] at hst₁
    have hlt := img.small
    have hpos₁ : (pagePos+1).toNat = it₁.it.toNat := by
      have hp : img.pages = img.file.size/8192 := rfl
      rw [toNat_add_one (by omega),hpos,hit]
    obtain ⟨positions',it',hrest,hst'⟩ := ih hs₁ (by rw [hstop₁]; exact hstop) (by omega)
      (blit buffer 0 PAGE_SIZE (pageOf img.file it.it.toNat)) _ hpos₁ _ hst₁
    refine ⟨positions',it',?_,hst'⟩
    simp only [fillPages,hnext,hloop,bind,Except.bind]
    exact hrest

/-- On a well-formed file `fill_toast_map` finishes, and the map it builds contains the
records of all slots and nothing else. -/
theorem fillToastMap_stores (img : ToastImage) (buffer : ℕ → UInt8) :
    ∃ toast, fillToastMap buffer ⟨fun _ => none,.opened img.file⟩ = .ok toast ∧
      Stores toast.positions (img.recordsBefore img.pages 0) := by
  have hmake : PageIterator.make (.opened img.file) =
      .ok ⟨.opened img.file,0,UInt32.ofNat img.pages⟩ := by
    rw [PageIterator.make_eq rfl img.small]
    exact if_pos img.aligned
  have hstop : (UInt32.ofNat img.pages).toNat = img.pages := by
    exact UInt32.toNat_ofNat_of_lt' (Nat.lt_of_le_of_lt (Nat.div_le_self _ _) img.small)
  obtain ⟨positions,it,hfill,hst⟩ := fillPages_stores img img.pages
    (PageIterator.sound_make hmake) hstop (Nat.zero_add _) buffer 0 rfl
    (fun _ => none) (by
      rw [show (0 : UInt32).toNat = 0 from rfl,recordsBefore_zero]
      exact stores_empty)
  refine ⟨⟨positions,it.stream⟩,?_,hst⟩
  simp only [fillToastMap,hmake,bind,Except.bind,hstop,hfill]
  rfl

/-- The payloads of value `v`: one chunk for each sequence number, and no others. -/
structure Value (img : ToastImage) (v : UInt32) (payloads : List (List UInt8)) : Prop where
  nonempty : payloads ≠ []
  placed : ∀ j (h : j < payloads.length), ∃ k i, Slot img.file k i ∧
    (img.chunk k i).chunkId = v ∧ (img.chunk k i).chunkSeq.toNat = j ∧
    (img.chunk k i).payload = payloads[j]
  only : ∀ k i, Slot img.file k i → (img.chunk k i).chunkId = v →
    (img.chunk k i).chunkSeq.toNat < payloads.length

theorem entry_range {k i : ℕ} (h : Slot img.file k i) :
    let e := (img.record k i).2.2
    img.file.Inside e.first.toNat e.second.toNat ∧ e.second.toNat = (img.chunk k i).payload.length ∧
      window img.file.byte e.first.toNat e.second.toNat = (img.chunk k i).payload := by
  obtain ⟨hattr,hheader,hdata,hinside⟩ := img.carries k i h
  obtain ⟨hk,-,hadm⟩ := h
  obtain ⟨-,-,hlen⟩ := (pdLinp (pageOf img.file k) i).admitted_iff.mp hadm
  have hsmall := img.small
  rw [(img.chunk k i).length_bytes] at hinside
  have hend : PAGE_SIZE*k+PAGE_SIZE ≤ img.file.size := by
    have := Nat.div_mul_le_self img.file.size PAGE_SIZE
    simp only [PAGE_SIZE] at hk this ⊢
    omega
  have hplace : chunkPlace k (pageOf img.file k) (pdLinp (pageOf img.file k) i) (img.chunk k i) +
      (img.chunk k i).payload.length ≤ img.file.size := by
    rw [chunkPlace]
    omega
  have hfirst : (UInt32.ofNat (chunkPlace k (pageOf img.file k) (pdLinp (pageOf img.file k) i)
      (img.chunk k i))).toNat =
      chunkPlace k (pageOf img.file k) (pdLinp (pageOf img.file k) i) (img.chunk k i) :=
    UInt32.toNat_ofNat_of_lt' (Nat.lt_of_le_of_lt (Nat.le_of_add_right_le hplace) hsmall)
  have hsecond : (UInt32.ofNat (img.chunk k i).payload.length).toNat =
      (img.chunk k i).payload.length :=
    UInt32.toNat_ofNat_of_lt' (Nat.lt_of_le_of_lt (Nat.le_of_add_left_le hplace) hsmall)
  obtain ⟨header,hb,hl⟩ := (img.chunk k i).chunkData.bytes_split
  rw [Chunk.bytes,hb,← List.append_assoc,holds_append] at hdata
  have hshow := hdata.2
  simp only [List.length_append,length_leBytes,hl,Nat.zero_add] at hshow
  refine ⟨?_,hsecond,?_⟩
  · right
    simp only [record,chunkEntry,hfirst,hsecond]
    exact hplace
  · simp only [record,chunkEntry,hfirst,hsecond]
    refine Eq.trans (window_congr fun j _ => ?_) hshow
    simp only [getItemData,getItemHeader,pageOf,chunkPlace]
    congr 1
    omega

theorem Value.row {positions : Positions} {v : UInt32} {payloads : List (List UInt8)}
    (hv : img.Value v payloads) (hst : Stores positions (img.recordsBefore img.pages 0)) :
    ∃ datas, positions v = some datas ∧ img.file.Covers (ranges datas) ∧
      img.file.extract (ranges datas) = payloads.flatten := by
  choose! k i hslot hid hseq hpayload using hv.placed
  have hlen : 0 < payloads.length := List.length_pos_iff.mpr hv.nonempty
  let f := fun j => (img.record (k j) (i j)).2.2
  have hrow : positions v = some ((List.range payloads.length).map f) := by
    refine hst.row hlen (fun j hj => ?_) fun j c hc => ?_
    · have hr := mem_recordsBefore (k := img.pages) (i := 0) (hslot j hj) (.inl (hslot j hj).1)
      have he : img.record (k j) (i j) = (v,j,f j) := by
        rw [← hid j hj]
        exact Prod.ext rfl (Prod.ext (hseq j hj) rfl)
      rwa [he] at hr
    · obtain ⟨k',i',hs,-,he⟩ := hc
      simp only [record,Prod.mk.injEq] at he
      rw [he.2.1]
      exact hv.only k' i' hs he.1.symm
  refine ⟨_,hrow,fun r hr => ?_,?_⟩
  · simp only [ranges,List.mem_map,List.mem_range,exists_exists_and_eq_and] at hr
    obtain ⟨j,hj,rfl⟩ := hr
    exact (entry_range (hslot j hj)).1
  · have hwindows : (List.range payloads.length).map
        (fun j => window img.file.byte (f j).first.toNat (f j).second.toNat) = payloads := by
      apply List.ext_getElem (by simp)
      intro j h₁ h₂
      rw [List.getElem_map,List.getElem_range,(entry_range (hslot j h₂)).2.2]
      exact hpayload j h₂
    rw [File.extract,ranges,List.map_map,List.flatMap_map,List.flatMap_def]
    exact congrArg List.flatten hwindows

end ToastImage

/-- On every well-formed toast file the map is built, every pointer that is not compressed
to a value of the file fetches the value's payloads in the order of their sequence numbers,
and every pointer to an id that no tuple has makes the call throw. -/
theorem fetchData_reassembles (img : ToastImage) (buffer : ℕ → UInt8) :
    ∃ toast, fillToastMap buffer ⟨fun _ => none,.opened img.file⟩ = .ok toast ∧
      (∀ (p : ToastPointer) (heap : Heap) (payloads : List (List UInt8)), p.isCompressed = false →
        img.Value p.pointer.vaValueid payloads → payloads.flatten.length < 2^32-4 →
        (p.fetchData toast heap).outcome = .ok payloads.flatten) ∧
      ∀ (p : ToastPointer) (heap : Heap),
        (∀ k i, Slot img.file k i → (img.chunk k i).chunkId ≠ p.pointer.vaValueid) →
        (p.fetchData toast heap).outcome = .error (.throw (.runtimeError "TOAST not found")) := by
  obtain ⟨toast,hfill,hst⟩ := ToastImage.fillToastMap_stores img buffer
  obtain ⟨hfile,hgood⟩ := fillToastMap_stream hfill
  refine ⟨toast,hfill,fun p heap payloads hc hv hlen => ?_,fun p heap hne => ?_⟩
  · obtain ⟨datas,hrow,hcov,hextract⟩ := hv.row hst
    have hl := congrArg List.length hextract
    rw [length_extract,sum_ranges] at hl
    have hcov' : toast.file.file.Covers (ranges datas) := by rw [hfile]; exact hcov
    have hgather := gather_covered 0 hgood hcov'
    rw [fetchData_plain hrow (by omega) hc,hgather,hfile]
    exact congrArg Except.ok hextract
  · have hnone : toast.positions p.pointer.vaValueid = none := by
      refine hst.eq_none fun j c hmem => ?_
      obtain ⟨k,i,hs,-,he⟩ := hmem
      simp only [ToastImage.record,Prod.mk.injEq] at he
      exact hne k i hs he.1.symm
    rw [fetchData_unknown hnone]

/-- One page with the value `abcd`, its second chunk in slot 0 and its first in slot 1. -/
def shuffledFile : File UInt8 where
  size := 8192
  byte i := (([(12,32),(24,0x40),(25,0x9f),(26,0x46),(28,0xa4),(29,0x9f),(30,0x4c),
    (8022,24),(8024,5),(8028,1),(8032,7),(8033,0x63),(8034,0x64),
    (8122,24),(8124,5),(8132,24),(8136,0x61),(8137,0x62)] : List (ℕ × UInt8)).lookup i).getD 0

def shuffledChunk (i : ℕ) : Chunk :=
  if i = 0 then ⟨5,1,.short [0x63,0x64] (by decide),trivial⟩
  else ⟨5,0,.long false [0x61,0x62] (by decide),trivial⟩

theorem shuffledFile_slot {k i : ℕ} (h : Slot shuffledFile k i) : k = 0 ∧ (i = 0 ∨ i = 1) := by
  obtain ⟨hk,hi,-⟩ := h
  have h₁ : shuffledFile.size/PAGE_SIZE = 1 := rfl
  obtain rfl : k = 0 := by omega
  have h₂ : pageGetMaxOffsetNumber (pageOf shuffledFile 0) = 2 := by decide
  omega

def shuffledImage : ToastImage where
  file := shuffledFile
  aligned := by decide
  small := by decide
  sane k hk := by
    have h₁ : shuffledFile.size/PAGE_SIZE = 1 := rfl
    obtain rfl : k = 0 := by omega
    decide
  chunk _ i := shuffledChunk i
  carries k i h := by
    obtain ⟨rfl,rfl | rfl⟩ := shuffledFile_slot h
    · exact ⟨by decide,by decide,rfl,by decide⟩
    · exact ⟨by decide,by decide,rfl,by decide⟩
  seq_lt k i h := by
    obtain ⟨rfl,rfl | rfl⟩ := shuffledFile_slot h <;> decide
  distinct k i k' i' h h' _ hseq := by
    obtain ⟨rfl,hi⟩ := shuffledFile_slot h
    obtain ⟨rfl,hi'⟩ := shuffledFile_slot h'
    refine ⟨rfl,?_⟩
    rcases hi with rfl | rfl <;> rcases hi' with rfl | rfl <;> revert hseq <;> decide

theorem shuffledImage_value : shuffledImage.Value 5 [[0x61,0x62],[0x63,0x64]] where
  nonempty := by simp
  placed j hj := by
    have h₀ : Slot shuffledFile 0 0 := by decide
    have h₁ : Slot shuffledFile 0 1 := by decide
    simp only [List.length_cons,List.length_nil] at hj
    interval_cases j
    · exact ⟨0,1,h₁,rfl,rfl,rfl⟩
    · exact ⟨0,0,h₀,rfl,rfl,rfl⟩
  only k i h _ := by
    obtain ⟨rfl,rfl | rfl⟩ := shuffledFile_slot h <;> decide

theorem fetchData_reassembles_shuffled :
    ∃ toast, fillToastMap (fun _ => 0) ⟨fun _ => none,.opened shuffledFile⟩ = .ok toast ∧
      ((ToastPointer.ofExternal ⟨8,4,5,0⟩).fetchData toast ⟨fun _ => 0,fun _ => 0⟩).outcome =
        .ok [0x61,0x62,0x63,0x64] := by
  obtain ⟨toast,hfill,hfetch,-⟩ := fetchData_reassembles shuffledImage fun _ => 0
  exact ⟨toast,hfill,hfetch (.ofExternal ⟨8,4,5,0⟩) ⟨fun _ => 0,fun _ => 0⟩ _ (by decide)
    shuffledImage_value (by decide)⟩

end PageDumper
