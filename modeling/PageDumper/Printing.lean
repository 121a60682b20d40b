import PageDumper.StoredRow
import PageDumper.ToastDumper

/-! The functions `print_varlena` and `print_geometric` of `page_dumper.cpp`, with which a user code
can list columns, one a line. Each returns what it writes to its stream; the
part of a line that stands before an exception is left out. -/
namespace PageDumper
open Memory Words HexText Outcome

def printLine (field value : List UInt8) : List UInt8 :=
  bytesFrom "\t\t" ++ field ++ bytesFrom " " ++ value ++ bytesFrom "\n"

def printVarlena (field : List UInt8) (varlena : Option Varlena) (heap : Heap) : Render (List UInt8) := do
  match varlena with
  | none => return printLine field (bytesFrom "NULL")
  | some v =>
    let str ← v.buildBytes heap
    return printLine field (bytesFrom "(" ++ bytesFrom (toString v.size.toNat) ++ bytesFrom ") \"" ++ str ++
      bytesFrom "\"")

def hexadecimateBytes (bytes : List UInt8) : Except Stop (List UInt8) :=
  bytes.foldlM (fun result b => do
    let digits ← hexadecimateByte b
    return result ++ digits) []

def printGeometric (field : List UInt8) (varlena : Option Varlena) (heap : Heap) : Render (List UInt8) := do
  match varlena with
  | none => printVarlena field none heap
  | some v =>
    let bytes ← v.buildBytes heap
    let digits ← MonadExcept.ofExcept (hexadecimateBytes bytes)
    return printLine field digits

theorem hexadecimateBytes_eq (bytes : List UInt8) : hexadecimateBytes bytes = .ok (text [] bytes) := by
  have hfold : ∀ result : List UInt8, bytes.foldlM (fun result b => do
      let digits ← hexadecimateByte b
      return result ++ digits) result = (.ok (result ++ text [] bytes) : Except Stop (List UInt8)) := by
    induction bytes with
    | nil =>
      intro result
      rw [text,List.flatMap_nil,List.append_nil]
      rfl
    | cons b bytes ih =>
      intro result
      rw [List.foldlM_cons,hexadecimateByte_eq]
      refine (ih _).trans ?_
      simp [text]
  exact hfold []

section Columns

variable {img : ToastImage} {v : Datum} {r : Except Stop (List UInt8)} {mem : ℕ → UInt8}

theorem printGeometric_gives (hr : Contents img v r) (h : Holds mem 0 v.bytes) (field : List UInt8)
    (heap : Heap) : Gives (Ready img) (printGeometric field (some ⟨mem⟩) heap)
      (r.map fun s => printLine field (text [] s)) := by
  have hbuild := buildBytes_gives hr h heap
  have hgives := hbuild.bind (f := fun bytes => (do
      let digits ← MonadExcept.ofExcept (hexadecimateBytes bytes)
      return printLine field digits : Render (List UInt8)))
    (g := fun s => .ok (printLine field (text [] s))) fun s _ => by
      rw [hexadecimateBytes_eq]
      exact gives_pure _
  cases r <;> exact hgives

end Columns

/-- With the map of a toast file, `print_geometric` writes digits from which the value of the column
can be read back, be it inline, TOASTed or TOASTed and compressed. -/
theorem printGeometric_readable (img : ToastImage) (buffer : ℕ → UInt8) :
    ∃ toast, fillToastMap buffer ⟨fun _ => none,.opened img.file⟩ = .ok toast ∧
      ∀ (v : Datum) (s : List UInt8) (mem : ℕ → UInt8) (field : List UInt8) (heap : Heap),
        Contents img v (.ok s) → Holds mem 0 v.bytes → ∃ digits toast',
          (printGeometric field (some ⟨mem⟩) heap).run.run (some toast) =
            (.ok (printLine field digits),some toast') ∧
          readText [] digits = some s := by
  obtain ⟨toast,hfill,hst⟩ := ToastImage.fillToastMap_stores img buffer
  obtain ⟨hfile,hgood⟩ := fillToastMap_stream hfill
  refine ⟨toast,hfill,fun v s mem field heap hr h => ?_⟩
  obtain ⟨-,hrun,toast',rfl,-⟩ := printGeometric_gives hr h field heap _ ⟨toast,rfl,hst,hfile,hgood⟩
  exact ⟨text [] s,toast',hrun,readText_text [] s⟩

theorem printGeometric_readable_shuffled : ∃ toast digits toast',
    fillToastMap (fun _ => 0) ⟨fun _ => none,.opened shuffledFile⟩ = .ok toast ∧
      (printGeometric [0x67] (some ⟨fun i => (0x01::18::(leBytes 8 ++ leBytes 4 ++ leBytes 5 ++
        leBytes 0)).getD i 0⟩) ⟨fun _ => 0,fun _ => 0⟩).run.run (some toast) =
        (.ok (printLine [0x67] digits),some toast') ∧
      readText [] digits = some [0x61,0x62,0x63,0x64] := by
  have hvalue : Fetches shuffledImage (toastPointer (leBytes 8 ++ leBytes 4 ++ leBytes 5 ++ leBytes 0))
      [0x61,0x62,0x63,0x64] :=
    @Fetches.plain shuffledImage (toastPointer _) [[0x61,0x62],[0x63,0x64]] (by decide)
      shuffledImage_value (by decide)
  obtain ⟨toast,hfill,hprint⟩ := printGeometric_readable shuffledImage fun _ => 0
  obtain ⟨digits,toast',hrun,hread⟩ := hprint (.toast (leBytes 8 ++ leBytes 4 ++ leBytes 5 ++ leBytes 0) rfl)
    _ (fun i => (0x01::18::(leBytes 8 ++ leBytes 4 ++ leBytes 5 ++ leBytes 0)).getD i 0) [0x67]
    ⟨fun _ => 0,fun _ => 0⟩ (.fetched _ _ hvalue) rfl
  exact ⟨toast,digits,toast',hfill,hrun,hread⟩

end PageDumper
