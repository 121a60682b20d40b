import PageDumper.ToastFilling
import PageDumper.SampleUser
import PageDumper.ItemExtent
import PageDumper.Lib.HexText
import Mathlib.Data.List.Nodup

/-! The user code `toast_dumper_user.cpp`, which lists the tuples of a toast table, and a whole
run of its program. Everything written is in `stdout`; a failed assertion ends the process. -/
namespace PageDumper
open Memory Words Reader RowTable HexText

/-- The characters `0` to `9` and `A` to `F`; the assertion is behind the `switch`. -/
def hexadecimate (value : UInt32) : Except Stop UInt8 :=
  match value.toNat with
  | 0 => .ok 0x30 | 1 => .ok 0x31 | 2 => .ok 0x32 | 3 => .ok 0x33
  | 4 => .ok 0x34 | 5 => .ok 0x35 | 6 => .ok 0x36 | 7 => .ok 0x37
  | 8 => .ok 0x38 | 9 => .ok 0x39 | 10 => .ok 0x41 | 11 => .ok 0x42
  | 12 => .ok 0x43 | 13 => .ok 0x44 | 14 => .ok 0x45 | 15 => .ok 0x46
  | _ => .error .abort

def hexadecimateByte (b : UInt8) : Except Stop (List UInt8) := do
  let high ← hexadecimate (b >>> 4).toUInt32
  let low ← hexadecimate (b &&& 0xF).toUInt32
  return [high,low]

/-- The bytes from `pos` to `max` or to the end of the data; `end` is called `stop` here. -/
def ItemData.hexadecimateAll (d : ItemData) (pos max : UInt32) : Except Stop (List UInt8) :=
  let stop := if d.dataSize > max then max else d.dataSize
  (List.range' pos.toNat (stop.toNat-pos.toNat)).foldlM (fun result i => do
    let digits ← hexadecimateByte (d.data i)
    return result ++ digits ++ [0x20]) []

structure DumperGlobals where
  filter : UInt32
  stdout : List UInt8

def chunkLine (chunkId chunkSeq size : UInt32) (chunkHex : List UInt8) : List UInt8 :=
  bytesFrom "\t\t\x7b" ++ bytesFrom (toString chunkId.toNat) ++ bytesFrom "," ++
    bytesFrom (toString chunkSeq.toNat) ++ bytesFrom ",[" ++ bytesFrom (toString size.toNat) ++
    bytesFrom "]\t\x7b" ++ chunkHex ++ bytesFrom "\x7d\x7d" ++ bytesFrom "\n"

def dumperCode (g : DumperGlobals) (itemheader : ItemHeader) (itemdata : ItemData) :
    Except Stop DumperGlobals := do
  let pos := 0
  assertion (itemheader.hasAttribute 0)
  assertion (itemheader.hasAttribute 1)
  assertion (itemheader.hasAttribute 2)
  let chunkId := itemdata.getUnsigned pos
  let pos := pos+itemdata.getUnsignedSize pos
  let chunkSeq := itemdata.getUnsigned pos
  let pos := pos+itemdata.getUnsignedSize pos
  let chunkData := itemdata.getVarlena pos
  let chunkHex ← itemdata.hexadecimateAll pos (pos+30)
  if g.filter = 0 ∨ chunkId = g.filter then
    return { g with stdout := g.stdout ++ chunkLine chunkId chunkSeq chunkData.size chunkHex }
  else return g

/-- The program; `number` is what reading a number from the second argument gives. -/
def toastDumper (number : UInt32) : UserCode DumperGlobals where
  setup argc := return ⟨if argc > 2 then number else 0,[]⟩
  code g _ itemheader itemdata := dumperCode g itemheader itemdata
  finish g := g

/-! ### Hexadecimal text -/

theorem hexadecimate_eq (n : ℕ) (h : n < 16) : hexadecimate (UInt32.ofNat n) = .ok (digit n) := by
  revert n
  decide

theorem hexadecimateByte_eq (b : UInt8) : hexadecimateByte b = .ok (byteText [] b) := by
  have hb := b.toNat_lt
  have hhigh : (b >>> 4).toUInt32 = UInt32.ofNat (b.toNat/16) := by
    apply UInt32.toNat_inj.mp
    rw [UInt8.toNat_toUInt32,UInt8.toNat_shiftRight,UInt32.toNat_ofNat']
    simp only [UInt8.reduceToNat,Nat.reduceMod,Nat.shiftRight_eq_div_pow]
    omega
  have hlow : (b &&& 0xF).toUInt32 = UInt32.ofNat (b.toNat%16) := by
    apply UInt32.toNat_inj.mp
    rw [UInt8.toNat_toUInt32,UInt8.toNat_and,UInt32.toNat_ofNat',
      show (0xF : UInt8).toNat = 2^4-1 from rfl,Nat.and_two_pow_sub_one_eq_mod]
    omega
  rw [hexadecimateByte,hhigh,hlow,hexadecimate_eq _ (by omega),hexadecimate_eq _ (by omega)]
  rfl

theorem ItemData.hexadecimateAll_eq (d : ItemData) (pos max : UInt32) :
    d.hexadecimateAll pos max =
      .ok (text [0x20] (window d.data pos.toNat (min max.toNat d.dataSize.toNat-pos.toNat))) := by
  have hfold : ∀ n a (result : List UInt8), (List.range' a n).foldlM (fun result i => do
      let digits ← hexadecimateByte (d.data i)
      return result ++ digits ++ [0x20]) result =
        (.ok (result ++ text [0x20] (window d.data a n)) : Except Stop (List UInt8)) := by
    intro n
    induction n with
    | zero =>
      intro a result
      rw [window_zero,text,List.flatMap_nil,List.append_nil]
      rfl
    | succ n ih =>
      intro a result
      rw [List.range'_succ,List.foldlM_cons,hexadecimateByte_eq,window_cons]
      refine (ih _ _).trans ?_
      simp [text,byteText]
  have hstop : (if d.dataSize > max then max else d.dataSize).toNat = min max.toNat d.dataSize.toNat := by
    split
    · rename_i h
      rw [gt_iff_lt,UInt32.lt_iff_toNat_lt] at h
      omega
    · rename_i h
      rw [gt_iff_lt,UInt32.lt_iff_toNat_lt] at h
      omega
  rw [hexadecimateAll]
  simp only [hstop]
  exact hfold _ _ _

/-! ### The lines of a run -/

/-- The stored bytes that a line shows: at most 30 from the varlena's header on. -/
def dumpedBytes (d : ItemData) : List UInt8 := window d.data 8 (min 38 d.dataSize.toNat-8)

def dumpedLine (filter : UInt32) (page : ℕ → UInt8) (itemid : ItemIdData) : List UInt8 :=
  if filter = 0 ∨ chunkId page itemid = filter then
    chunkLine (chunkId page itemid) (chunkSeq page itemid) (chunkVarlena page itemid).size
      (text [0x20] (dumpedBytes (getItemData page itemid)))
  else []

theorem dumperCode_eq (g : DumperGlobals) (page : ℕ → UInt8) (itemid : ItemIdData) :
    dumperCode g (getItemHeader page itemid) (getItemData page itemid) =
      if ThreeColumns page itemid then
        .ok { g with stdout := g.stdout ++ dumpedLine g.filter page itemid }
      else .error .abort := by
  have hp₁ : (0 : UInt32)+(getItemData page itemid).getUnsignedSize 0 = 4 := rfl
  have hp₂ : (4 : UInt32)+(getItemData page itemid).getUnsignedSize 4 = 8 := rfl
  by_cases hcols : ThreeColumns page itemid
  · rw [if_pos hcols]
    obtain ⟨h₀,h₁,h₂⟩ := hcols
    by_cases hf : g.filter = 0 ∨ (getItemData page itemid).getUnsigned 0 = g.filter
    · simp only [dumperCode,assertion,h₀,h₁,h₂,if_true,bind,Except.bind,hp₁,hp₂,
        ItemData.hexadecimateAll_eq,dumpedLine,dumpedBytes,chunkId,chunkSeq,chunkVarlena,hf]
      rfl
    · simp only [dumperCode,assertion,h₀,h₁,h₂,if_true,bind,Except.bind,hp₁,hp₂,
        ItemData.hexadecimateAll_eq,dumpedLine,chunkId,hf,if_false,List.append_nil]
      rfl
  · rw [if_neg hcols]
    cases h₀ : (getItemHeader page itemid).hasAttribute 0 with
    | false => simp [dumperCode,assertion,h₀,bind,Except.bind]
    | true =>
      cases h₁ : (getItemHeader page itemid).hasAttribute 1 with
      | false => simp [dumperCode,assertion,h₀,h₁,bind,Except.bind]
      | true =>
        have h₂ : (getItemHeader page itemid).hasAttribute 2 = false := by
          simpa [ThreeColumns,h₀,h₁] using hcols
        simp [dumperCode,assertion,h₀,h₁,h₂,bind,Except.bind]

def slotLine (filter : UInt32) (f : File UInt8) (buffer : ℕ → UInt8) (slot : ℕ × ℕ) : List UInt8 :=
  dumpedLine filter (pageBuffer f buffer slot.1) (pdLinp (pageOf f slot.1) slot.2)

theorem onSlot_toastDumper (number : UInt32) (f : File UInt8) (buffer : ℕ → UInt8) (g : DumperGlobals)
    (slot : ℕ × ℕ) : (toastDumper number).onSlot f buffer g slot =
      if SlotColumns f buffer slot then
        .ok { g with stdout := g.stdout ++ slotLine g.filter f buffer slot }
      else .error .abort :=
  dumperCode_eq g (pageBuffer f buffer slot.1) (pdLinp (pageOf f slot.1) slot.2)

/-- The invariant of a run: the output has grown by the lines of the slots. -/
theorem dumper_slots (number : UInt32) (f : File UInt8) (buffer : ℕ → UInt8) (ss : List (ℕ × ℕ))
    (g : DumperGlobals) : ss.foldlM ((toastDumper number).onSlot f buffer) g =
      if ∀ slot ∈ ss, SlotColumns f buffer slot then
        .ok { g with stdout := g.stdout ++ ss.flatMap (slotLine g.filter f buffer) }
      else .error .abort := by
  induction ss generalizing g with
  | nil =>
    rw [if_pos (by simp),List.flatMap_nil,List.append_nil]
    rfl
  | cons slot ss ih =>
    rw [List.foldlM_cons,onSlot_toastDumper]
    by_cases hcols : SlotColumns f buffer slot
    · rw [if_pos hcols]
      refine (ih _).trans ?_
      simp only [List.forall_mem_cons,hcols,true_and,List.flatMap_cons,List.append_assoc]
    · rw [if_neg hcols,if_neg fun h => hcols (h slot (by simp))]
      rfl

section Carried

variable {page : ℕ → UInt8} {itemid : ItemIdData} {c : Chunk}

theorem CarriesChunk.fields (hadm : itemid.admitted = true) (h : CarriesChunk page itemid c) :
    chunkId page itemid = c.chunkId ∧ chunkSeq page itemid = c.chunkSeq ∧
      (chunkVarlena page itemid).size = UInt32.ofNat c.chunkData.bytes.length ∧
      Holds (getItemData page itemid).data 8 c.chunkData.bytes ∧
      8+c.chunkData.bytes.length ≤ (getItemData page itemid).dataSize.toNat := by
  obtain ⟨-,-,hdata,hinside⟩ := h
  obtain ⟨-,-,hlen⟩ := itemid.admitted_iff.mp hadm
  simp only [Chunk.bytes,holds_append,List.length_append,length_leBytes,Nat.zero_add] at hdata hinside
  obtain ⟨⟨hid,hseq⟩,hval⟩ := hdata
  simp only [PAGE_SIZE] at hlen
  have hsize := (toNat_dataSize page itemid).mpr (by omega)
  refine ⟨le32_of_holds hid,le32_of_holds hseq,?_,hval,by omega⟩
  have hv : Holds (chunkVarlena page itemid).mem 0 c.chunkData.bytes :=
    hval.congr fun i _ => by rw [Nat.zero_add]; rfl
  apply UInt32.toNat_inj.mp
  rw [(size_of_holds _ c.plain.column hv).1,UInt32.toNat_ofNat_of_lt' (show _ < 2^32 by omega)]

theorem CarriesChunk.shown (hadm : itemid.admitted = true) (h : CarriesChunk page itemid c) :
    c.chunkData.bytes.take 30 <+: dumpedBytes (getItemData page itemid) := by
  obtain ⟨-,-,-,hval,hle⟩ := h.fields hadm
  have htake : c.chunkData.bytes.take 30 =
      window (getItemData page itemid).data 8 (min 30 c.chunkData.bytes.length) := by
    apply List.ext_getElem (by simp)
    intro i h₁ h₂
    rw [length_window] at h₂
    have hall : window (getItemData page itemid).data 8 c.chunkData.bytes.length = c.chunkData.bytes := hval
    rw [List.getElem_take,getElem_window]
    conv_lhs => rw [List.getElem_of_eq hall.symm]
    rw [getElem_window]
  obtain ⟨k,hk⟩ : ∃ k, min 38 (getItemData page itemid).dataSize.toNat-8 =
      min 30 c.chunkData.bytes.length+k := Nat.exists_eq_add_of_le (by omega)
  rw [htake,dumpedBytes,hk,window_add]
  exact List.prefix_append _ _

end Carried

namespace ToastImage

variable (img : ToastImage) (buffer : ℕ → UInt8)

def line (slot : ℕ × ℕ) : List UInt8 :=
  chunkLine (img.chunk slot.1 slot.2).chunkId (img.chunk slot.1 slot.2).chunkSeq
    (UInt32.ofNat (img.chunk slot.1 slot.2).chunkData.bytes.length)
    (text [0x20] (dumpedBytes (getItemData (pageBuffer img.file buffer slot.1)
      (pdLinp (pageOf img.file slot.1) slot.2))))

variable {img} in
theorem carries_buffer {slot : ℕ × ℕ} (h : slot ∈ slots img.file) :
    CarriesChunk (pageBuffer img.file buffer slot.1) (pdLinp (pageOf img.file slot.1) slot.2)
      (img.chunk slot.1 slot.2) := by
  have hs := mem_slots.mp h
  exact ((samePage_pageBuffer img.file buffer slot.1).carriesChunk hs.2.2 (img.carries _ _ hs)).1

variable {img} in
theorem slotLine_eq {slot : ℕ × ℕ} (h : slot ∈ slots img.file) (filter : UInt32) :
    slotLine filter img.file buffer slot =
      if filter = 0 ∨ (img.chunk slot.1 slot.2).chunkId = filter then img.line buffer slot else [] := by
  obtain ⟨hid,hseq,hsize,-,-⟩ := (carries_buffer buffer h).fields (mem_slots.mp h).2.2
  rw [slotLine,dumpedLine,hid,hseq,hsize,line]

theorem main_toastDumper_lines (hpages : 0 < img.pages) (number : UInt32) {argc : ℕ} (hargc : 2 ≤ argc) :
    ∃ g, main (toastDumper number) argc (.opened img.file) buffer = .ok (0,some g) ∧
      g.stdout = ((slots img.file).filter fun slot => (if argc > 2 then number else 0) = 0 ∨
        (img.chunk slot.1 slot.2).chunkId = if argc > 2 then number else 0).flatMap (img.line buffer) := by
  have hcols : ∀ slot ∈ slots img.file, SlotColumns img.file buffer slot := by
    intro slot hs
    have hattr := (carries_buffer buffer hs).attributes
    exact ⟨hattr 0 (by omega),hattr 1 (by omega),hattr 2 (by omega)⟩
  have hrun : main (toastDumper number) argc (.opened img.file) buffer =
      .ok (0,some ⟨if argc > 2 then number else 0,
        (slots img.file).flatMap (slotLine (if argc > 2 then number else 0) img.file buffer)⟩) := by
    rw [main_slots img.saneFile hpages _ hargc]
    change mainTry ((slots img.file).foldlM _ _ >>= _) = _
    rw [dumper_slots,if_pos hcols,List.nil_append]
    rfl
  refine ⟨_,hrun,?_⟩
  generalize (if argc > 2 then number else 0) = filter
  have hline := fun slot (h : slot ∈ slots img.file) => slotLine_eq buffer h filter
  dsimp only
  generalize slots img.file = ss at hline
  induction ss with
  | nil => rfl
  | cons slot ss ih =>
    rw [List.flatMap_cons,hline slot (by simp),ih fun s hs => hline s (by simp [hs]),List.filter_cons]
    by_cases hf : filter = 0 ∨ (img.chunk slot.1 slot.2).chunkId = filter
    · simp only [hf,if_true,decide_true,List.flatMap_cons]
    · simp only [hf,if_false,decide_false,Bool.false_eq_true,List.nil_append]

end ToastImage

/-- What the program prints for a value of the toast file when it filters for its id: one line for
each chunk of the value and no other, with its sequence number, its stored size, and digits that
read back as its first 30 stored bytes or more. -/
theorem toastDumper_lists_value (img : ToastImage) (buffer : ℕ → UInt8) {v : UInt32} (hv : v ≠ 0)
    {payloads : List (List UInt8)} (hvalue : img.Value v payloads) :
    ∃ (g : DumperGlobals) (chunks : List (ℕ × ℕ)),
      main (toastDumper v) 3 (.opened img.file) buffer = .ok (0,some g) ∧
      g.stdout = chunks.flatMap (img.line buffer) ∧
      (chunks.map fun slot => (img.chunk slot.1 slot.2).chunkSeq.toNat).Perm (List.range payloads.length) ∧
      ∀ slot ∈ chunks, Slot img.file slot.1 slot.2 ∧ (img.chunk slot.1 slot.2).chunkId = v ∧
        ∃ shown, img.line buffer slot = chunkLine v (img.chunk slot.1 slot.2).chunkSeq
            (UInt32.ofNat (img.chunk slot.1 slot.2).chunkData.bytes.length) (text [0x20] shown) ∧
          readText [0x20] (text [0x20] shown) = some shown ∧
          (img.chunk slot.1 slot.2).chunkData.bytes.take 30 <+: shown := by
  have hlen := List.length_pos_iff.mpr hvalue.nonempty
  have hpages : 0 < img.pages := by
    obtain ⟨k,i,hs,-⟩ := hvalue.placed 0 hlen
    exact Nat.zero_lt_of_lt hs.1
  obtain ⟨g,hmain,hout⟩ := img.main_toastDumper_lines buffer hpages v (show 2 ≤ 3 by omega)
  simp only [gt_iff_lt,show 2 < 3 by omega,if_true,hv,false_or] at hout
  have hmem : ∀ slot, slot ∈ (slots img.file).filter
      (fun slot => decide ((img.chunk slot.1 slot.2).chunkId = v)) ↔
      Slot img.file slot.1 slot.2 ∧ (img.chunk slot.1 slot.2).chunkId = v := by
    intro slot
    rw [List.mem_filter,mem_slots,decide_eq_true_eq]
  refine ⟨g,_,hmain,hout,?_,fun slot hs => ?_⟩
  · have hnodup : ((slots img.file).filter
        fun slot => decide ((img.chunk slot.1 slot.2).chunkId = v)).Nodup := by
      refine ((pairwise_slots img.file).imp fun {s t} h he => ?_).filter _
      rw [he] at h
      omega
    refine (List.perm_ext_iff_of_nodup (List.Nodup.map_on ?_ hnodup) List.nodup_range).mpr fun j => ?_
    · intro s hs t ht he
      obtain ⟨hslot,hid⟩ := (hmem s).mp hs
      obtain ⟨hslot',hid'⟩ := (hmem t).mp ht
      obtain ⟨hk,hi⟩ := img.distinct _ _ _ _ hslot hslot' (hid.trans hid'.symm) (UInt32.toNat_inj.mp he)
      exact Prod.ext hk hi
    · simp only [List.mem_map,List.mem_range,hmem]
      constructor
      · rintro ⟨slot,⟨hslot,hid⟩,rfl⟩
        exact hvalue.only _ _ hslot hid
      · intro hj
        obtain ⟨k,i,hslot,hid,hseq,-⟩ := hvalue.placed j hj
        exact ⟨(k,i),⟨hslot,hid⟩,hseq⟩
  · obtain ⟨hslot,hid⟩ := (hmem slot).mp hs
    refine ⟨hslot,hid,_,by rw [ToastImage.line,hid],readText_text _ _,?_⟩
    exact (ToastImage.carries_buffer buffer (mem_slots.mpr hslot)).shown hslot.2.2

theorem toastDumper_lists_value_shuffled : ∃ (g : DumperGlobals) (chunks : List (ℕ × ℕ)),
    main (toastDumper 5) 3 (.opened shuffledFile) (fun _ => 0) = .ok (0,some g) ∧
      g.stdout = chunks.flatMap (shuffledImage.line fun _ => 0) ∧
      (chunks.map fun slot => (shuffledChunk slot.2).chunkSeq.toNat).Perm (List.range 2) := by
  obtain ⟨g,chunks,hmain,hout,hperm,-⟩ := toastDumper_lists_value shuffledImage (fun _ => 0)
    (show (5 : UInt32) ≠ 0 by decide) shuffledImage_value
  exact ⟨g,chunks,hmain,hout,hperm⟩

end PageDumper
