import PageDumper.StoredRow
import PageDumper.MainRun
import PageDumper.ItemExtent

/-! A whole run of `table_sample` over a table file and its toast file. The script has the rows of
the table in file order, each with the values that were stored, and leaves out exactly the rows
of which a TOASTed value is lost. -/
namespace PageDumper
open Memory Words Reader RowTable Outcome Grouping SqlText

/-- The program, given the toast file. A state is the number of calls made and the globals; the
unspecified memory that call `n` meets may be any. -/
def tableSample (toastBuffer : ℕ → UInt8) (toastFile : Stream UInt8) (heap : ℕ → ℕ → Heap) :
    UserCode (ℕ × Globals) where
  setup argc := do
    let g ← userCodeSetup argc toastBuffer toastFile
    return (0,g)
  code s _ itemheader itemdata := do
    let g ← userCode s.2 ⟨itemheader,itemdata,heap s.1⟩
    return (s.1+1,g)
  finish s := (s.1,userCodeFinish s.2)

/-! ### Table files -/

/-- The item is a tuple with the row, inside its item; the null bitmap of eleven columns takes two
bytes behind the fixed part of the header. -/
structure CarriesRow (page : ℕ → UInt8) (itemid : ItemIdData) (r : SampleRow) : Prop where
  header : 25 ≤ itemid.lpLen
  hoff : (getItemHeader page itemid).tHoff.toNat ≤ itemid.lpLen
  carries : Carries r (getItemHeader page itemid) (getItemData page itemid)
  unpadded : Unpadded 0 r.values

/-- A table file in front of a toast file: the row in each slot, and what the first ten of its
columns stand for. -/
structure TableImage (img : ToastImage) where
  file : File UInt8
  sane : SaneFile file
  row : ℕ → ℕ → SampleRow
  carries : ∀ k i, Slot file k i → CarriesRow (pageOf file k) (pdLinp (pageOf file k) i) (row k i)
  value : ℕ → ℕ → List (Except Stop SqlValue)
  resolves : ∀ k i, Slot file k i → List.Forall₂ (Resolves img) ((row k i).values.take 10) (value k i)

theorem SamePage.carriesRow {page page' : ℕ → UInt8} (h : SamePage page page') {itemid : ItemIdData}
    {r : SampleRow} (hadm : itemid.admitted = true) (hc : CarriesRow page itemid r) :
    Carries r (getItemHeader page' itemid) (getItemData page' itemid) := by
  obtain ⟨-,-,hlen⟩ := itemid.admitted_iff.mp hadm
  obtain ⟨hheader,hhoff,⟨hpresent,hdata,hsize⟩,-⟩ := hc
  have hcell : ∀ i < itemid.lpLen,
      (getItemHeader page' itemid).mem i = (getItemHeader page itemid).mem i :=
    fun i hi => (h _ (by omega)).symm
  have hoff : (getItemHeader page' itemid).tHoff = (getItemHeader page itemid).tHoff :=
    hcell 22 (by omega)
  have hinfo : (getItemHeader page' itemid).tInfomask = (getItemHeader page itemid).tInfomask := by
    simp only [ItemHeader.tInfomask,le16,hcell 20 (by omega),hcell (20+1) (by omega)]
  have hbitmap : (getItemHeader page' itemid).hasBitmap = (getItemHeader page itemid).hasBitmap := by
    rw [ItemHeader.hasBitmap,ItemHeader.hasBitmap,hinfo]
  have hdatasize : (getItemData page' itemid).dataSize = (getItemData page itemid).dataSize := by
    simp only [getItemData,hoff]
  have hfits := (toNat_dataSize page itemid).mpr hhoff
  refine ⟨fun k hk => ?_,?_,by rw [hdatasize]; exact hsize⟩
  · rw [r.length_values] at hk
    rw [← hpresent k (by rw [r.length_values]; exact hk),ItemHeader.hasAttribute,ItemHeader.hasAttribute,
      hbitmap]
    have hbyte : (getItemHeader page' itemid).tBits (k >>> 3) = (getItemHeader page itemid).tBits (k >>> 3) := by
      refine hcell _ ?_
      rw [Nat.shiftRight_eq_div_pow]
      omega
    simp only [ItemHeader.attIsnull,hbyte]
  · refine hdata.congr fun i hi => ?_
    simp only [getItemData,hoff]
    exact (hcell _ (by omega)).symm

namespace TableImage

variable {img : ToastImage} (t : TableImage img)

/-- The row that is printed for a slot, if none of its values is lost. -/
def printed (slot : ℕ × ℕ) : Option (List UInt8) :=
  match (t.value slot.1 slot.2).mapM id with
  | .ok vs => some (rowText vs ((t.row slot.1 slot.2).values[10]?.join).isSome)
  | .error _ => none

def rows : List (List UInt8) := (slots t.file).filterMap t.printed

end TableImage

theorem Resolves.outcome {img : ToastImage} {v : Option Datum} {r : Except Stop SqlValue}
    (h : Resolves img v r) : (∃ x, r = .ok x) ∨ ∃ e, r = .error (.throw e) := by
  cases h with
  | null => exact .inl ⟨_,rfl⟩
  | integer w => exact .inl ⟨_,rfl⟩
  | @contents v r hcont =>
    cases hcont with
    | lost pointer bound hl => exact .inr ⟨_,rfl⟩
    | _ => exact .inl ⟨_,rfl⟩

theorem mapM_outcome {img : ToastImage} {vs : List (Option Datum)} {rs : List (Except Stop SqlValue)}
    (h : List.Forall₂ (Resolves img) vs rs) :
    (∃ xs, rs.mapM id = .ok xs) ∨ ∃ e, rs.mapM id = .error (.throw e) := by
  induction h with
  | nil => exact .inl ⟨[],rfl⟩
  | cons hr _ ih =>
    rw [List.mapM_cons]
    rcases hr.outcome with ⟨x,rfl⟩ | ⟨e,rfl⟩
    · rcases ih with ⟨xs,hxs⟩ | ⟨e,he⟩
      · exact .inl ⟨x::xs,by rw [hxs]; rfl⟩
      · exact .inr ⟨e,by rw [he]; rfl⟩
    · exact .inr ⟨e,rfl⟩

/-! ### The run -/

section Run

variable {img : ToastImage} (t : TableImage img) (toastBuffer : ℕ → UInt8) (toastFile : Stream UInt8)
  (heap : ℕ → ℕ → Heap) (buffer : ℕ → UInt8)

/-- The globals after a call for a slot: its row has been written and counted, or it has none. -/
def Globals.after (g : Globals) (toastmap : ToastMap) : Option (List UInt8) → Globals
  | some row => ⟨toastmap,g.insertionCount+1,g.stdout ++ (rowLead g.insertionCount ++ row)⟩
  | none => ⟨toastmap,g.insertionCount,g.stdout⟩

/-- One call. Whatever was fetched before, it writes the row of the slot or nothing. -/
theorem onSlot_tableSample {slot : ℕ × ℕ} (hs : slot ∈ slots t.file) (n : ℕ) {g : Globals}
    (hm : MapOf img g.toastmap) : ∃ toastmap, MapOf img toastmap ∧
      (tableSample toastBuffer toastFile heap).onSlot t.file buffer (n,g) slot =
        .ok (n+1,g.after toastmap (t.printed slot)) := by
  have hslot := mem_slots.mp hs
  have hc := t.carries _ _ hslot
  have hresolves := t.resolves _ _ hslot
  have hpage := (samePage_pageBuffer t.file buffer slot.1).carriesRow hslot.2.2 hc
  obtain ⟨w,hw,hpos,hgives⟩ := sqlRow_gives hpage hc.unpadded hresolves (heap n)
  obtain ⟨σ,hrun,toastmap,rfl,hm'⟩ := hgives _ ⟨_,rfl,hm⟩
  refine ⟨toastmap,hm',?_⟩
  change (userCode g _ >>= fun g => pure (n+1,g)) = _
  rcases mapM_outcome hresolves with ⟨vs,hvs⟩ | ⟨e,he⟩
  · rw [hvs] at hrun
    simp only [userCode,hw,hrun,hpos,TableImage.printed,hvs,Except.map,assertion,if_true,bind,Except.bind]
    rfl
  · rw [he] at hrun
    simp only [userCode,hw,hrun,TableImage.printed,he,Except.map,bind,Except.bind]
    rfl

structure Written (img : ToastImage) (rows : List (List UInt8)) (g : Globals) : Prop where
  map : MapOf img g.toastmap
  count : g.insertionCount.toNat = rows.length
  stdout : g.stdout = bytesFrom "BEGIN;\n" ++
    emit 500 (sqlInsert ++ bytesFrom "\n") (bytesFrom ",\n") (bytesFrom ";\n") 0 rows

theorem Written.after {rows : List (List UInt8)} {g : Globals} (h : Written img rows g)
    {toastmap : ToastMap} (hm : MapOf img toastmap) (printed : Option (List UInt8))
    (hlt : (rows ++ printed.toList).length < 2^32) :
    Written img (rows ++ printed.toList) (g.after toastmap printed) := by
  cases printed with
  | none =>
    rw [Option.toList_none,List.append_nil]
    exact ⟨hm,h.count,h.stdout⟩
  | some row =>
    rw [Option.toList_some,List.length_append,List.length_singleton] at hlt
    refine ⟨hm,?_,?_⟩
    · rw [Globals.after,toNat_add_one (by rw [h.count]; exact hlt),h.count,Option.toList_some,
        List.length_append,List.length_singleton]
    · rw [Globals.after,h.stdout,rowLead_eq,h.count,Option.toList_some,emit_append,Nat.zero_add,emit,emit]
      simp only [List.append_assoc,List.append_nil]

theorem foldlM_tableSample (ss : List (ℕ × ℕ)) (hss : ∀ s ∈ ss, s ∈ slots t.file) (n : ℕ) {g : Globals}
    {rows : List (List UInt8)} (h : Written img rows g)
    (hlt : (rows ++ ss.filterMap t.printed).length < 2^32) :
    ∃ s, ss.foldlM ((tableSample toastBuffer toastFile heap).onSlot t.file buffer) (n,g) = .ok s ∧
      Written img (rows ++ ss.filterMap t.printed) s.2 := by
  induction ss generalizing n g rows with
  | nil => exact ⟨(n,g),rfl,by rw [List.filterMap_nil,List.append_nil]; exact h⟩
  | cons slot ss ih =>
    obtain ⟨toastmap,hm,hstep⟩ := onSlot_tableSample t toastBuffer toastFile heap buffer
      (hss slot (by simp)) n h.map
    have hsplit : rows ++ (slot::ss).filterMap t.printed =
        rows ++ (t.printed slot).toList ++ ss.filterMap t.printed := by
      rw [List.filterMap_cons]
      cases t.printed slot <;> simp
    rw [hsplit] at hlt ⊢
    have hafter := h.after hm (t.printed slot) (by rw [List.length_append] at hlt; omega)
    obtain ⟨s,hrun,hw⟩ := ih (fun s hs => hss s (by simp [hs])) (n+1) hafter hlt
    exact ⟨s,by rw [List.foldlM_cons,hstep]; exact hrun,hw⟩

end Run

theorem lex_rowText (v : SqlValue) (vs : List SqlValue) (point : Bool) :
    lex (rowText (v::vs) point) =
      some (tupleTokens ((v::vs).map SqlValue.token ++ [.word (pointText point)])) := by
  have hpoint : Reads (pointText point) (.word (pointText point)) := by
    cases point with
    | false => exact reads_sqlGeometric none
    | true => exact reads_sqlGeometric (some ⟨fun _ => 0⟩)
  have hreads : List.Forall₂ Reads (vs.map SqlValue.text ++ [pointText point])
      (vs.map SqlValue.token ++ [.word (pointText point)]) := by
    refine List.rel_append ?_ (.cons hpoint .nil)
    rw [List.forall₂_map_left_iff,List.forall₂_map_right_iff,List.forall₂_same]
    exact fun v _ => v.reads
  have hrow : rowText (v::vs) point = 0x09::0x28::(v.text ++
      (((vs.map SqlValue.text ++ [pointText point]).flatMap fun text => 0x2c::0x20::text) ++ [0x29])) := by
    rw [rowText,List.map_cons,List.cons_append,intercalate_cons]
    simp only [show bytesFrom "\t(" = [0x09,0x28] from rfl,show bytesFrom ", " = [0x2c,0x20] from rfl,
      show bytesFrom ")" = [0x29] from rfl,List.append_assoc,List.cons_append,List.nil_append]
  rw [hrow,lex_blank rfl,lex_tuple v.reads hreads]
  rfl

theorem eq_map_of_mapM {rs : List (Except Stop SqlValue)} {vs : List SqlValue}
    (h : rs.mapM id = .ok vs) : rs = vs.map .ok := by
  induction rs generalizing vs with
  | nil =>
    cases h
    rfl
  | cons r rs ih =>
    rw [List.mapM_cons] at h
    cases r with
    | error e => cases h
    | ok x =>
      cases hrs : rs.mapM id with
      | error e =>
        rw [hrs] at h
        cases h
      | ok xs =>
        rw [hrs] at h
        cases h
        rw [ih hrs,List.map_cons]

theorem setup_tableSample (img : ToastImage) (toastBuffer : ℕ → UInt8) (heap : ℕ → ℕ → Heap) {argc : ℕ}
    (hargc : 3 ≤ argc) : ∃ g, (tableSample toastBuffer (.opened img.file) heap).setup argc = .ok (0,g) ∧
      Written img [] g := by
  obtain ⟨toast,hfill,hst⟩ := ToastImage.fillToastMap_stores img toastBuffer
  obtain ⟨hfile,hgood⟩ := fillToastMap_stream hfill
  refine ⟨⟨toast,0,bytesFrom "BEGIN;\n"⟩,?_,⟨hst,hfile,hgood⟩,rfl,(List.append_nil _).symm⟩
  simp only [tableSample,userCodeSetup,if_neg (show ¬ argc ≤ 2 by omega),hfill,bind,Except.bind]
  rfl

/-- From the files to the script. On a table file in front of a toast file the program exits with 0;
its script is one transaction that inserts the rows of the table in file order, in groups of
500, without those that have a lost value; and each row is read by an SQL lexer as the values
that are stored. -/
theorem main_tableSample {img : ToastImage} (t : TableImage img) (hne : t.rows ≠ [])
    (hlt : t.rows.length < 2^32) (toastBuffer : ℕ → UInt8) (heap : ℕ → ℕ → Heap) {argc : ℕ}
    (hargc : 3 ≤ argc) (buffer : ℕ → UInt8) :
    (∃ s, main (tableSample toastBuffer (.opened img.file) heap) argc (.opened t.file) buffer =
        .ok (0,some s) ∧
      s.2.stdout = bytesFrom "BEGIN;\n" ++
        script 500 (sqlInsert ++ bytesFrom "\n") (bytesFrom ",\n") (bytesFrom ";\n") t.rows ++
        bytesFrom "COMMIT;\n") ∧
    ∀ slot ∈ slots t.file, ∀ row, t.printed slot = some row →
      ∃ vs : List SqlValue, t.value slot.1 slot.2 = vs.map .ok ∧ lex row = some (tupleTokens (vs.map SqlValue.token ++
        [.word (pointText ((t.row slot.1 slot.2).values[10]?.join).isSome)])) := by
  constructor
  · have hpages : 0 < t.file.size/PAGE_SIZE := by
      obtain ⟨row,hrow⟩ := List.exists_mem_of_ne_nil _ hne
      obtain ⟨slot,hslot,-⟩ := List.mem_filterMap.mp hrow
      exact Nat.zero_lt_of_lt (mem_slots.mp hslot).1
    obtain ⟨g₀,hsetup,hw₀⟩ := setup_tableSample img toastBuffer heap hargc
    obtain ⟨s,hrun,hw⟩ := foldlM_tableSample t toastBuffer (.opened img.file) heap buffer (slots t.file)
      (fun _ h => h) 0 hw₀ hlt
    refine ⟨(s.1,userCodeFinish s.2),?_,?_⟩
    · rw [main_slots t.sane hpages _ (by omega),hsetup]
      change mainTry ((slots t.file).foldlM _ _ >>= _) = _
      rw [hrun]
      rfl
    · rw [List.nil_append] at hw
      simp only [userCodeFinish,hw.stdout]
      rw [← emit_eq_script 500 _ _ (bytesFrom ";\n") (by omega) hne]
      simp only [TableImage.rows,List.append_assoc]
  · intro slot hs row hrow
    have hresolves := t.resolves _ _ (mem_slots.mp hs)
    rw [TableImage.printed] at hrow
    cases hvs : (t.value slot.1 slot.2).mapM id with
    | error e =>
      rw [hvs] at hrow
      cases hrow
    | ok vs =>
      rw [hvs] at hrow
      cases hrow
      have hvalue := eq_map_of_mapM hvs
      refine ⟨vs,hvalue,?_⟩
      cases vs with
      | nil =>
        have hlen := hresolves.length_eq
        rw [hvalue,List.length_take,SampleRow.length_values] at hlen
        cases hlen
      | cons v vs => exact lex_rowText v vs _

/-- One page with the rows `7,a` and, with a TOASTed name each, 8 and 9. -/
def tableFile : File UInt8 where
  size := 8192
  byte i := (([(12,36),(24,0x40),(25,0x9f),(26,0x4c),(28,0x68),(29,0x9f),(30,0x6c),(32,0xa4),(33,0x9f),
    (34,0x6c),(8020,1),(8022,32),(8023,3),(8032,7),(8036,5),(8037,0x61),
    (8060,1),(8062,32),(8063,3),(8072,8),(8076,1),(8077,18),(8078,8),(8082,4),(8086,5),
    (8120,1),(8122,32),(8123,3),(8132,9),(8136,1),(8137,18),(8138,8),(8142,4),(8146,6)] :
      List (ℕ × UInt8)).lookup i).getD 0

def toastedRow (id valueid : UInt32) : SampleRow where
  values := some (.int4 id)::
    some (.toast (leBytes 8 ++ leBytes 4 ++ leBytes valueid ++ leBytes 0) (by simp))::List.replicate 9 none
  typed := by repeat (first | exact List.Forall₂.nil | refine List.Forall₂.cons (by simp [Datum.column]) ?_)
  id_present := rfl
  name_present := rfl

def tableRow (i : ℕ) : SampleRow :=
  if i = 0 then shortRow else if i = 1 then toastedRow 8 5 else toastedRow 9 6

theorem tableFile_slot {k i : ℕ} (h : Slot tableFile k i) : k = 0 ∧ (i = 0 ∨ i = 1 ∨ i = 2) := by
  obtain ⟨hk,hi,-⟩ := h
  have h₁ : tableFile.size/PAGE_SIZE = 1 := rfl
  obtain rfl : k = 0 := by omega
  have h₂ : pageGetMaxOffsetNumber (pageOf tableFile 0) = 3 := by decide
  omega

def tableImage : TableImage shuffledImage where
  file := tableFile
  sane :=
    { aligned := by decide
      small := by decide
      sane := fun k hk => by
        have h₁ : tableFile.size/PAGE_SIZE = 1 := rfl
        obtain rfl : k = 0 := by omega
        decide }
  row _ i := tableRow i
  carries k i h := by
    obtain ⟨rfl,rfl | rfl | rfl⟩ := tableFile_slot h
    · exact ⟨by decide,by decide,⟨by decide,rfl,rfl⟩,by decide⟩
    · exact ⟨by decide,by decide,⟨by decide,rfl,rfl⟩,by decide⟩
    · exact ⟨by decide,by decide,⟨by decide,rfl,rfl⟩,by decide⟩
  value _ i :=
    (if i = 0 then [.ok (.integer 7),.ok (.string [0x61])]
      else if i = 1 then [.ok (.integer 8),.ok (.string [0x61,0x62,0x63,0x64])]
      else [.ok (.integer 9),.error (.throw (.runtimeError "TOAST not found"))]) ++
    List.replicate 8 (.ok .null)
  resolves k i h := by
    have hnull : List.Forall₂ (Resolves shuffledImage) (List.replicate 8 none)
        (List.replicate 8 (.ok .null)) := by
      repeat (first | exact List.Forall₂.nil | refine List.Forall₂.cons .null ?_)
    obtain ⟨rfl,rfl | rfl | rfl⟩ := tableFile_slot h
    · exact .cons (.integer 7) (.cons (.contents (.short _ _)) hnull)
    · have hvalue : Fetches shuffledImage (toastPointer (leBytes 8 ++ leBytes 4 ++ leBytes 5 ++ leBytes 0))
          [0x61,0x62,0x63,0x64] :=
        @Fetches.plain shuffledImage (toastPointer _) [[0x61,0x62],[0x63,0x64]] (by decide)
          shuffledImage_value (by decide)
      exact .cons (.integer 8) (.cons (.contents (.fetched _ _ hvalue)) hnull)
    · have hlost : Lost shuffledImage (toastPointer (leBytes 8 ++ leBytes 4 ++ leBytes 6 ++ leBytes 0)) := by
        intro k i hs
        obtain ⟨rfl,rfl | rfl⟩ := shuffledFile_slot hs <;> decide
      exact .cons (.integer 9) (.cons (.contents (.lost _ _ hlost)) hnull)

theorem tableImage_rows : tableImage.rows.length = 2 := rfl

theorem main_tableSample_tableFile : ∃ s,
    main (tableSample (fun _ => 0) (.opened shuffledFile) fun _ _ => ⟨fun _ => 0,fun _ => 0⟩) 3
      (.opened tableFile) (fun _ => 0) = .ok (0,some s) ∧
    s.2.stdout = bytesFrom "BEGIN;\n" ++
      script 500 (sqlInsert ++ bytesFrom "\n") (bytesFrom ",\n") (bytesFrom ";\n") tableImage.rows ++
      bytesFrom "COMMIT;\n" := by
  have hlen := tableImage_rows
  exact (main_tableSample tableImage (List.ne_nil_of_length_pos (by omega)) (by omega) (fun _ => 0) _
    (by decide) fun _ => 0).1

end PageDumper
