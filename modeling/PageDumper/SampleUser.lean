import PageDumper.SampleWalk
import PageDumper.SharedStream
import PageDumper.Lib.Grouping

/-! The sample user code `table_sample_user.cpp`, built without PostGIS: the SQL text of a
row, which may end in an exception after some TOAST values have been read, and the three
entry points with the globals they share. What is written to `stderr` is left out. -/
namespace PageDumper
open Memory Words Reader

def bytesFrom (str : String) : List UInt8 := str.toList.map fun c => UInt8.ofNat c.toNat

/-- Computations that may throw and that see the static `Varlena::toastmap`, if it is set.
Reads move the map's stream also when they end in an exception. -/
abbrev Render := ExceptT Stop (StateM (Option ToastMap))

def fetchToast (p : ToastPointer) (heap : Heap) : Render (List UInt8) := do
  match ← get with
  | some toastmap =>
    let r := p.fetchData toastmap heap
    set (some { toastmap with file := r.stream })
    match r.outcome with
    | .ok bytes => return bytes
    | .error e => throw e
  | none => return bytesFrom p.buildString

namespace Varlena

def getToastPointer (v : Varlena) : ToastPointer := ⟨fun i => v.mem (1+i)⟩

def buildBytes (v : Varlena) (heap : Heap) : Render (List UInt8) :=
  match v.lenType with
  | .compressed => return bytesFrom "COMPRESSED"
  | .toasted => fetchToast v.getToastPointer heap
  | .normal => return window v.mem 4 (v.size-4).toNat
  | .oneByte => return window v.mem 1 (v.size-1).toNat

end Varlena

def escapeByte (b : UInt8) : List UInt8 :=
  if b = 0x5c then [0x5c,0x5c] else if b = 0x27 then [0x27,0x27] else [b]

def sqlVarlena (varlena : Option Varlena) (heap : Heap) : Render (List UInt8) := do
  match varlena with
  | none => return bytesFrom "NULL"
  | some v =>
    let str ← v.buildBytes heap
    return bytesFrom "E'" ++ str.flatMap escapeByte ++ bytesFrom "'"

def sqlInteger (number : ℤ) (notNull : Bool) : List UInt8 :=
  if !notNull then bytesFrom "NULL" else bytesFrom (toString number)

/-- Without PostGIS the value is not looked at, but a null one is announced first. -/
def sqlGeometric (varlena : Option Varlena) : List UInt8 :=
  (if varlena.isNone then bytesFrom "NULL" else []) ++ bytesFrom "NULL"

structure UserCall where
  itemheader : ItemHeader
  itemdata : ItemData
  heap : ℕ → Heap

/-- The text of a row from the opening to the closing parenthesis. An absent integer is an
uninitialised variable that is not printed; `id` is converted from `unsigned` to `int`. -/
def sqlRow (c : UserCall) (w : Walk) : Render (List UInt8) := do
  let varlena pos := Option.map c.itemdata.getVarlena pos
  let integer pos := Option.elim pos 0 c.itemdata.getInteger
  let sep := bytesFrom ", "
  let name ← sqlVarlena (varlena (some w.name)) (c.heap 1)
  let text1 ← sqlVarlena (varlena w.text1) (c.heap 2)
  let text2 ← sqlVarlena (varlena w.text2) (c.heap 3)
  let text3 ← sqlVarlena (varlena w.text3) (c.heap 4)
  let text4 ← sqlVarlena (varlena w.text4) (c.heap 6)
  let text5 ← sqlVarlena (varlena w.text5) (c.heap 7)
  let text6 ← sqlVarlena (varlena w.text6) (c.heap 9)
  return bytesFrom "\t(" ++ sqlInteger (int32 (c.itemdata.getUnsigned w.id)) true ++ sep ++ name ++
    sep ++ text1 ++ sep ++ text2 ++ sep ++ text3 ++
    sep ++ sqlInteger (integer w.number1) (c.itemheader.hasAttribute 5) ++ sep ++ text4 ++
    sep ++ text5 ++ sep ++ sqlInteger (integer w.number2) (c.itemheader.hasAttribute 8) ++
    sep ++ text6 ++ sep ++ sqlGeometric (varlena w.point) ++ bytesFrom ")"

structure Globals where
  toastmap : ToastMap
  insertionCount : UInt32
  stdout : List UInt8

def sqlInsert : List UInt8 := bytesFrom
  "INSERT INTO sistema.grupo (id,name,text1,text2,text3,number1,text4,text5,number2,text6,point) VALUES "

def rowLead (insertionCount : UInt32) : List UInt8 :=
  if insertionCount % 500 = 0 then
    (if insertionCount ≠ 0 then bytesFrom ";\n" else []) ++ (sqlInsert ++ bytesFrom "\n")
  else bytesFrom ",\n"

/-- Only an `std::exception` of the rendering is caught. -/
def userCode (g : Globals) (c : UserCall) : Except Stop Globals := do
  let w ← walk c.itemheader c.itemdata
  let r := (sqlRow c w).run.run (some g.toastmap)
  let toastmap := r.2.getD g.toastmap
  match r.1 with
  | .ok row =>
    let allOutput := rowLead g.insertionCount ++ row
    assertion (w.pos = c.itemdata.dataSize)
    return { toastmap, insertionCount := g.insertionCount+1, stdout := g.stdout ++ allOutput }
  | .error (.throw _) => return { g with toastmap }
  | .error e => .error e

def userCodeSetup (argc : ℕ) (buffer : ℕ → UInt8) (toastFile : Stream UInt8) :
    Except Stop Globals := do
  if argc ≤ 2 then .error (.throwInt 1)
  else
    let toastmap ← fillToastMap buffer ⟨fun _ => none,toastFile⟩
    return ⟨toastmap,0,bytesFrom "BEGIN;\n"⟩

def userCodeFinish (g : Globals) : Globals :=
  { g with stdout := g.stdout ++ bytesFrom ";\n" ++ bytesFrom "COMMIT;\n" }

end PageDumper
