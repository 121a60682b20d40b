import PageDumper.CompressedValue
import PageDumper.PglzInverse
import PageDumper.Reassembly

/-! A text on its way through the toast table: compressed by `pglz_compress`, cut into chunks,
found again by `fill_toast_map` and put together and decompressed by `fetch_data`. -/
namespace PageDumper
open Memory Words Reader RowTable LZ77

/-- What is stored for a text of length `slen` that is compressed in `dest`: all of the datum but
its length word, in chunks under the pointer's id, and its two sizes in the pointer. -/
structure Toasted (img : ToastImage) (p : ToastPointer) (slen : ℕ) (dest : ℕ → UInt8) : Prop where
  chunks : ∃ payloads, img.Value p.pointer.vaValueid payloads ∧
    payloads.flatten = window dest 4 (varsize (le32 dest 0)-4)
  rawsize : p.pointer.vaRawsize.toNat = slen+4
  extsize : p.pointer.vaExtsize.toNat = varsize (le32 dest 0)-4

theorem StoredCompressed.outcome {toast : ToastMap} {p : ToastPointer} {e : PglzStream}
    (h : StoredCompressed toast p e) (hlen : e.expansion.length+1024 < 2^31)
    (hun : Unmarked e.expansion) (hcover : CoversText e (varsize (p.pointer.vaRawsize <<< 2)))
    (heap : Heap) : (p.fetchData toast heap).outcome = .ok e.expansion := by
  obtain ⟨hgood,⟨datas,hrow,hcov,hextract⟩,hsmall,hcomp⟩ := h
  have hbytes := e.length_bytes_le
  have hfit : 4+payloadSize datas < 2^32 := by
    have hl := congrArg List.length hextract
    rw [length_extract,sum_ranges,List.length_append,length_leBytes] at hl
    omega
  have hw : (UInt32.ofNat e.expansion.length).toNat = e.expansion.length :=
    UInt32.toNat_ofNat_of_lt' (Nat.lt_trans hsmall (by decide))
  obtain ⟨hraw,hstream⟩ := holds_pglzHeader p.pointer.vaRawsize (UInt32.ofNat e.expansion.length)
    e.bytes heap.result
  rw [le32_putLe32_rawsize] at hraw
  rw [fetchData_compressed hrow hfit hcomp]
  simp only [gather_covered 0 hgood hcov,hextract]
  have hsignals := decompressValue_signals_iff hstream (by rw [hraw,hw]) hsmall heap.decompressed toast.file []
  simpa only using (hsignals.mpr ⟨hlen,hun,hcover⟩).1

section Toasted

variable {img : ToastImage} {p : ToastPointer} {toast : ToastMap} {source : ℕ → UInt8} {slen : ℕ}
  {dest : ℕ → UInt8} {strategy : Option PglzStrategy} {entries : ℕ → PglzHistEntry} {r : Compressed}

theorem Toasted.stored (hfill : Stores toast.positions (img.recordsBefore img.pages 0))
    (hfile : toast.file.file = img.file) (hgood : toast.file.failbit = false)
    (hslen : slen+8 ≤ 2^30) (hr : pglzCompress source slen dest strategy entries = some r)
    (hs : r.success = true) (ht : Toasted img p slen r.dest)
    (hsaves : varsize (le32 r.dest 0) < slen+4) :
    StoredCompressed toast p (greedy source (strategy.getD strategyDefaultData) slen) := by
  obtain ⟨hvar,-,hstream,-⟩ := pglzCompress_header hslen hr hs
  obtain ⟨⟨payloads,hvalue,hflat⟩,hraw,hext⟩ := ht
  have hlen := congrArg List.length (expansion_greedy source (strategy.getD strategyDefaultData) slen)
  rw [length_window] at hlen
  generalize greedy source (strategy.getD strategyDefaultData) slen = e at hvar hstream hlen
  rw [hvar] at hflat hext hsaves
  obtain ⟨datas,hrow,hcov,hextract⟩ := hvalue.row hfill
  refine ⟨hgood,⟨datas,hrow,hfile ▸ hcov,?_⟩,by omega,?_⟩
  · have hstored : window r.dest 4 (e.bytes.length+8-4) = leBytes (UInt32.ofNat slen) ++ e.bytes := by
      have hall : window r.dest 4 (leBytes (UInt32.ofNat slen) ++ e.bytes).length = _ := hstream
      rw [List.length_append,length_leBytes] at hall
      rwa [show e.bytes.length+8-4 = 4+e.bytes.length by omega]
    rw [hfile,hextract,hflat,hstored,hlen]
  · have hr₄ : (p.pointer.vaRawsize-4).toNat = slen := by
      rw [UInt32.toNat_sub_of_le _ _ (by rw [UInt32.le_iff_toNat_le,hraw]; exact Nat.le_add_left ..),hraw]
      rfl
    rw [ToastPointer.isCompressed,int32_of_lt (by omega),int32_of_lt (by omega),hr₄,hext]
    simp only [decide_eq_true_eq]
    omega

/-- Under the default strategy a compressed text is a quarter smaller, so its pointer says that it is
compressed. -/
theorem pglzCompress_default_saves (hslen : slen+8 ≤ 2^30)
    (hr : pglzCompress source slen dest none entries = some r) (hs : r.success = true) :
    varsize (le32 r.dest 0) < slen+4 := by
  obtain ⟨hvar,-⟩ := pglzCompress_header hslen hr hs
  rw [pglzCompress_eq] at hr
  obtain rfl := Option.some.inj hr
  obtain ⟨hforbids,-,hmax,-⟩ := plainCompress_success hs
  have hmin : 32 ≤ slen := by
    by_contra hlt
    exact hforbids (.inr (.inl (by simp only [Option.getD_none,strategyDefaultData]; omega)))
  have hrate : (100-(none.getD strategyDefaultData).needRate) = 75 := rfl
  rw [PglzStrategy.resultMax,hrate] at hmax
  rw [hvar]
  split at hmax <;> omega

end Toasted

/-- From the text to the text. Whatever the slots of its chunks are, a text that `pglz_compress` has
compressed under the default strategy is what `fetch_data` returns for its pointer, unless it looks
like the marker of a corrupted value. -/
theorem fetchData_pglzCompress (img : ToastImage) (buffer : ℕ → UInt8) :
    ∃ toast, fillToastMap buffer ⟨fun _ => none,.opened img.file⟩ = .ok toast ∧
      ∀ (source : ℕ → UInt8) (slen : ℕ) (dest : ℕ → UInt8) (entries : ℕ → PglzHistEntry)
        (r : Compressed) (p : ToastPointer) (heap : Heap),
        pglzCompress source slen dest none entries = some r → r.success = true →
        slen+8 ≤ 2^30 → Toasted img p slen r.dest → Unmarked (window source 0 slen) →
        (p.fetchData toast heap).outcome = .ok (window source 0 slen) := by
  obtain ⟨toast,hfill,hst⟩ := ToastImage.fillToastMap_stores img buffer
  obtain ⟨hfile,hgood⟩ := fillToastMap_stream hfill
  refine ⟨toast,hfill,fun source slen dest entries r p heap hr hs hslen ht hun => ?_⟩
  have hsaves := pglzCompress_default_saves hslen hr hs
  have hstored := ht.stored hst hfile hgood hslen hr hs hsaves
  obtain ⟨hvar,-⟩ := pglzCompress_header hslen hr hs
  have hexp := expansion_greedy source (none.getD strategyDefaultData) slen
  generalize greedy source (none.getD strategyDefaultData) slen = e at hstored hvar hexp
  have hlen : e.expansion.length = slen := by rw [hexp,length_window]
  have hcover := coversText_of_sizes (p := p) (e := e) (by rw [hlen,ht.rawsize]) (by omega)
    (by rw [ht.extsize,hvar]; omega) hstored.compressed
  rw [← hexp] at hun ⊢
  exact hstored.outcome (by omega) hun hcover heap

/-- One page with the 40 times `a` compressed in two chunks, the second one in slot 0. -/
def toastedFile : File UInt8 where
  size := 8192
  byte i := (([(12,32),(24,0x40),(25,0x9f),(26,0x4a),(28,0xa4),(29,0x9f),(30,0x52),
    (8022,24),(8024,5),(8028,1),(8032,11),(8033,0x61),(8034,0x0f),(8035,1),(8036,21),
    (8122,24),(8124,5),(8132,36),(8136,40),(8140,2)] : List (ℕ × UInt8)).lookup i).getD 0

def toastedChunk (i : ℕ) : Chunk :=
  if i = 0 then ⟨5,1,.short [0x61,0x0f,1,21] (by decide),trivial⟩
  else ⟨5,0,.long false [40,0,0,0,2] (by decide),trivial⟩

theorem toastedFile_slot {k i : ℕ} (h : Slot toastedFile k i) : k = 0 ∧ (i = 0 ∨ i = 1) := by
  obtain ⟨hk,hi,-⟩ := h
  have h₁ : toastedFile.size/PAGE_SIZE = 1 := rfl
  obtain rfl : k = 0 := by omega
  have h₂ : pageGetMaxOffsetNumber (pageOf toastedFile 0) = 2 := by decide
  omega

def toastedImage : ToastImage where
  file := toastedFile
  aligned := by decide
  small := by decide
  sane k hk := by
    have h₁ : toastedFile.size/PAGE_SIZE = 1 := rfl
    obtain rfl : k = 0 := by omega
    decide
  chunk _ i := toastedChunk i
  carries k i h := by
    obtain ⟨rfl,rfl | rfl⟩ := toastedFile_slot h
    · exact ⟨by decide,by decide,rfl,by decide⟩
    · exact ⟨by decide,by decide,rfl,by decide⟩
  seq_lt k i h := by
    obtain ⟨rfl,rfl | rfl⟩ := toastedFile_slot h <;> decide
  distinct k i k' i' h h' _ hseq := by
    obtain ⟨rfl,hi⟩ := toastedFile_slot h
    obtain ⟨rfl,hi'⟩ := toastedFile_slot h'
    refine ⟨rfl,?_⟩
    rcases hi with rfl | rfl <;> rcases hi' with rfl | rfl <;> revert hseq <;> decide

theorem toastedImage_value : toastedImage.Value 5 [[40,0,0,0,2],[0x61,0x0f,1,21]] where
  nonempty := by simp
  placed j hj := by
    have h₀ : Slot toastedFile 0 0 := by decide
    have h₁ : Slot toastedFile 0 1 := by decide
    simp only [List.length_cons,List.length_nil] at hj
    rcases j with _ | _ | j
    · exact ⟨0,1,h₁,rfl,rfl,rfl⟩
    · exact ⟨0,0,h₀,rfl,rfl,rfl⟩
    · omega
  only k i h _ := by
    obtain ⟨rfl,rfl | rfl⟩ := toastedFile_slot h <;> decide

theorem fetchData_pglzCompress_toasted :
    ∃ toast, fillToastMap (fun _ => 0) ⟨fun _ => none,.opened toastedFile⟩ = .ok toast ∧
      ((ToastPointer.ofExternal ⟨44,9,5,0⟩).fetchData toast ⟨fun _ => 0,fun _ => 0⟩).outcome =
        .ok (window (fun _ => 0x61) 0 40) := by
  have hrun : ((pglzCompress (fun _ => 0x61) 40 (fun _ => 0) none fun _ => ⟨none,none,0,0⟩).map fun r =>
      (r.success,varsize (le32 r.dest 0),window r.dest 4 9)) =
      some (true,13,[40,0,0,0,2,0x61,0x0f,1,21]) := by decide +kernel
  obtain ⟨r,hr,hresult⟩ := Option.map_eq_some_iff.mp hrun
  simp only [Prod.mk.injEq] at hresult
  obtain ⟨hs,hsize,hdatum⟩ := hresult
  obtain ⟨toast,hfill,hfetch⟩ := fetchData_pglzCompress toastedImage fun _ => 0
  refine ⟨toast,hfill,hfetch _ 40 _ _ r _ _ hr hs (by decide) ?_ (.inl (by decide))⟩
  exact ⟨⟨_,toastedImage_value,by rw [hsize]; exact hdatum.symm⟩,rfl,by rw [hsize]; rfl⟩

end PageDumper
