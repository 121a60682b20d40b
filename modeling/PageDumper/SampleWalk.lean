import PageDumper.Datum

/-! The walk of `user_code` over the eleven columns of the sample table, compared with the
field offsets that PostgreSQL's own alignment macros give for the same tuple. -/
namespace PageDumper
open Memory Words ItemData

/-- `id,name,text1,text2,text3,number1,text4,text5,number2,text6,point`. -/
def columns : List Column :=
  [.int4,.varlena,.varlena,.varlena,.varlena,.int4,.varlena,.varlena,.int4,.varlena,.varlena]

/-! ### The walk of the source -/

/-- The value of `pos` at which each field is taken; `none` where the column is null. -/
structure Walk where
  id : UInt32
  name : UInt32
  text1 : Option UInt32
  text2 : Option UInt32
  text3 : Option UInt32
  number1 : Option UInt32
  text4 : Option UInt32
  text5 : Option UInt32
  number2 : Option UInt32
  text6 : Option UInt32
  point : Option UInt32
  pos : UInt32

def fieldSize (d : ItemData) (pos : UInt32) : Column → UInt32
  | .int4 => d.getIntegerSize pos
  | .varlena => d.getVarlenaSize pos

def takeField (h : ItemHeader) (d : ItemData) (k : ℕ) (c : Column) (pos : UInt32) :
    Option UInt32 × UInt32 :=
  if h.hasAttribute k then (some pos,pos+fieldSize d pos c) else (none,pos)

def walk (h : ItemHeader) (d : ItemData) : Except Stop Walk := do
  let pos := 0
  assertion (h.hasAttribute 0)
  let id := pos
  let pos := pos+d.getUnsignedSize pos
  assertion (h.hasAttribute 1)
  let name := pos
  let pos := pos+d.getVarlenaSize pos
  let text1 := takeField h d 2 .varlena pos
  let text2 := takeField h d 3 .varlena text1.2
  let text3 := takeField h d 4 .varlena text2.2
  let number1 := takeField h d 5 .int4 text3.2
  let text4 := takeField h d 6 .varlena number1.2
  let text5 := takeField h d 7 .varlena text4.2
  let number2 := takeField h d 8 .int4 text5.2
  let text6 := takeField h d 9 .varlena number2.2
  let point := takeField h d 10 .varlena text6.2
  return { id, name, text1 := text1.1, text2 := text2.1, text3 := text3.1,
           number1 := number1.1, text4 := text4.1, text5 := text5.1,
           number2 := number2.1, text6 := text6.1, point := point.1, pos := point.2 }

/-- The address a field is read from: the word accessors skip padding, `get_varlena` does not. -/
def fieldStart (pos : UInt32) : Column → ℕ
  | .int4 => wordStart pos
  | .varlena => pos.toNat

def Walk.starts (w : Walk) : List (Option ℕ) :=
  [some (fieldStart w.id .int4),some (fieldStart w.name .varlena),
    w.text1.map (fieldStart · .varlena),w.text2.map (fieldStart · .varlena),
    w.text3.map (fieldStart · .varlena),w.number1.map (fieldStart · .int4),
    w.text4.map (fieldStart · .varlena),w.text5.map (fieldStart · .varlena),
    w.number2.map (fieldStart · .int4),w.text6.map (fieldStart · .varlena),
    w.point.map (fieldStart · .varlena)]

def walkColumns (h : ItemHeader) (d : ItemData) : ℕ → List Column → UInt32 → List (Option ℕ) × UInt32
  | _, [], pos => ([],pos)
  | k, c::cs, pos =>
    let field := takeField h d k c pos
    let rest := walkColumns h d (k+1) cs field.2
    (field.1.map (fieldStart · c)::rest.1,rest.2)

theorem walk_columns {h : ItemHeader} {d : ItemData} (h₀ : h.hasAttribute 0 = true)
    (h₁ : h.hasAttribute 1 = true) :
    ∃ w, walk h d = .ok w ∧ w.starts = (walkColumns h d 0 columns 0).1 ∧
      w.pos = (walkColumns h d 0 columns 0).2 := by
  simp only [walk,assertion,h₀,h₁,if_true,bind,Except.bind,pure,Except.pure]
  refine ⟨_,rfl,?_,?_⟩ <;>
    simp only [Walk.starts,columns,walkColumns,takeField,h₀,h₁,if_true,Option.map_some,
      fieldSize,getIntegerSize,getUnsignedSize]

theorem walk_present {h : ItemHeader} {d : ItemData} {w : Walk} (hw : walk h d = .ok w) :
    h.hasAttribute 0 = true ∧ h.hasAttribute 1 = true := by
  simp only [walk,assertion,bind,Except.bind] at hw
  cases h₀ : h.hasAttribute 0 with
  | false => simp [h₀] at hw
  | true =>
    cases h₁ : h.hasAttribute 1 with
    | false => simp [h₀,h₁] at hw
    | true => exact ⟨rfl,rfl⟩

theorem takeField_isNone (h : ItemHeader) (d : ItemData) (k : ℕ) (c : Column) (pos : UInt32) :
    (takeField h d k c pos).1.isNone = !h.hasAttribute k := by
  rw [takeField]
  split <;> simp_all

theorem walkColumns_isNone (h : ItemHeader) (d : ItemData) (k : ℕ) (cs : List Column) (pos : UInt32)
    {i : ℕ} (hi : i < cs.length) :
    (walkColumns h d k cs pos).1[i]?.map Option.isNone = some (!h.hasAttribute (k+i)) := by
  induction cs generalizing k pos i with
  | nil => simp at hi
  | cons c cs ih =>
    cases i with
    | zero => simp [walkColumns,takeField_isNone]
    | succ i =>
      have hi' : i < cs.length := by simpa using hi
      rw [walkColumns,List.getElem?_cons_succ,ih (k+1) _ hi']
      congr 3
      omega

theorem walk_isNone {h : ItemHeader} {d : ItemData} {w : Walk} (hw : walk h d = .ok w) {k : ℕ}
    (hk : k < 11) : w.starts[k]?.map Option.isNone = some (!h.hasAttribute k) := by
  obtain ⟨h₀,h₁⟩ := walk_present hw
  obtain ⟨w',hw',hstarts,-⟩ := walk_columns (d := d) h₀ h₁
  rw [hw] at hw'
  cases hw'
  have hc := walkColumns_isNone h d 0 columns 0 (i := k) (by exact hk)
  rwa [Nat.zero_add,← hstarts] at hc

/-! ### The rules of `tupmacs.h` -/

def attOffsets (present : ℕ → Bool) (mem : ℕ → UInt8) : ℕ → List Column → ℕ → List (Option ℕ) × ℕ
  | _, [], off => ([],off)
  | k, c::cs, off =>
    if present k then
      let start := attAlignPointer off c mem
      let rest := attOffsets present mem (k+1) cs (attAddlengthPointer start c mem)
      (some start::rest.1,rest.2)
    else
      let rest := attOffsets present mem (k+1) cs off
      (none::rest.1,rest.2)

/-! ### Tuples laid out by these rules -/

/-- The data area of a tuple from offset `off` on, with zero pad bytes. -/
def layout : ℕ → List (Option Datum) → List UInt8
  | _, [] => []
  | off, none::vs => layout off vs
  | off, some v::vs =>
    List.replicate (v.padding off) 0 ++ v.bytes ++ layout (off+v.padding off+v.bytes.length) vs

theorem layout_end (off : ℕ) (v : Datum) (vs : List (Option Datum)) :
    off+(layout off (some v::vs)).length = off+v.padding off+v.bytes.length+
      (layout (off+v.padding off+v.bytes.length) vs).length := by
  simp only [layout,List.length_append,List.length_replicate]
  omega

/-- No four-byte-header varlena needs pad bytes in front of it. -/
def Unpadded : ℕ → List (Option Datum) → Prop
  | _, [] => True
  | off, none::vs => Unpadded off vs
  | off, some v::vs => (v.column = .varlena → v.padding off = 0) ∧
      Unpadded (off+v.padding off+v.bytes.length) vs

instance decidableUnpadded : ∀ off vs, Decidable (Unpadded off vs)
  | _, [] => inferInstanceAs (Decidable True)
  | off, none::vs => decidableUnpadded off vs
  | off, some v::vs =>
    have := decidableUnpadded (off+v.padding off+v.bytes.length) vs
    inferInstanceAs (Decidable (_ ∧ _))

structure SampleRow where
  values : List (Option Datum)
  typed : List.Forall₂ (fun c v => ∀ d ∈ v, Datum.column d = c) columns values
  id_present : (values[0]?.join).isSome
  name_present : (values[1]?.join).isSome

/-- The tuple in memory carries the row: its bitmap marks the null columns and its data area,
of `data_size` bytes, is the row's layout. -/
structure Carries (r : SampleRow) (h : ItemHeader) (d : ItemData) : Prop where
  present : ∀ k < r.values.length, h.hasAttribute k = (r.values[k]?.join).isSome
  data : Holds d.data 0 (layout 0 r.values)
  size : d.dataSize.toNat = (layout 0 r.values).length

/-- The walk starts every non-null field where the rules put it, has nothing for null
fields, and ends at `data_size`, so that the assertion after rendering holds. -/
def WalkFaithful (h : ItemHeader) (d : ItemData) : Prop :=
  ∃ w, walk h d = .ok w ∧ w.starts = (attOffsets h.hasAttribute d.data 0 columns 0).1 ∧
    w.pos = d.dataSize

section Walking

variable {h : ItemHeader} {d : ItemData} {cs : List Column} {vs : List (Option Datum)}

theorem attAlignPointer_eq {v : Datum} {off : ℕ}
    (hpad : Holds d.data off (List.replicate (v.padding off) 0))
    (hv : Holds d.data (off+v.padding off) v.bytes) :
    attAlignPointer off v.column d.data = off+v.padding off := by
  have hsize := fun hc => size_of_holds (fun i => d.data (off+v.padding off+i)) hc
    (hv.congr fun i _ => by simp)
  rw [attAlignPointer]
  rcases Bool.eq_false_or_eq_true v.wordAligned with hw | hw
  · have hp : v.padding off = (4-off%4)%4 := by rw [Datum.padding,if_pos hw]
    split_ifs with hc
    · have hz : v.padding off = 0 := by
        by_contra hne
        obtain ⟨n,hn⟩ : ∃ n, v.padding off = n+1 := ⟨v.padding off-1,by omega⟩
        rw [hn,List.replicate_succ,holds_cons] at hpad
        exact hc.2 hpad.1
      rw [hz,Nat.add_zero]
    · rw [intalign_eq,hp]
  · have hp : v.padding off = 0 := by rw [Datum.padding,if_neg (by simp [hw])]
    have hc : v.column = .varlena := by cases v <;> simp_all [Datum.wordAligned,Datum.column]
    have hne := (hsize hc).2.2 hw
    simp only [hp,Nat.add_zero] at hne ⊢
    rw [if_pos ⟨hc,hne⟩]

theorem attAddlengthPointer_eq {v : Datum} {off : ℕ} (hv : Holds d.data off v.bytes) :
    attAddlengthPointer off v.column d.data = off+v.bytes.length := by
  cases hc : v.column with
  | int4 =>
    cases v <;> simp_all [Datum.column,attAddlengthPointer,Datum.bytes]
  | varlena =>
    have h := size_of_holds (fun i => d.data (off+i)) hc (hv.congr fun i _ => by simp)
    simp only [attAddlengthPointer,h.2.1]

/-- The walk agrees with the alignment rules on a row if and only if no four-byte-header
varlena of it is padded: at the first padded one the walk starts at a pad byte. -/
theorem walkColumns_iff (htyped : List.Forall₂ (fun c v => ∀ x ∈ v, Datum.column x = c) cs vs)
    (k off : ℕ) (pos : UInt32) (hpos : pos.toNat = off)
    (hattr : ∀ i < vs.length, h.hasAttribute (k+i) = (vs[i]?.join).isSome)
    (hdata : Holds d.data off (layout off vs)) (hsize : off+(layout off vs).length < 2^32) :
    ((walkColumns h d k cs pos).1 = (attOffsets h.hasAttribute d.data k cs off).1 ∧
      (walkColumns h d k cs pos).2.toNat = off+(layout off vs).length) ↔ Unpadded off vs := by
  induction htyped generalizing k off pos with
  | nil => simp [walkColumns,attOffsets,layout,Unpadded,hpos]
  | @cons c v cs vs hc ht ih =>
    have hattr₀ := hattr 0 (by simp)
    have hattr' : ∀ i < vs.length, h.hasAttribute (k+1+i) = (vs[i]?.join).isSome := by
      intro i hi
      have := hattr (i+1) (by simpa using hi)
      rwa [show k+1+i = k+(i+1) by omega]
    cases v with
    | none =>
      have hn : h.hasAttribute k = false := by simpa using hattr₀
      simp only [walkColumns,takeField,attOffsets,hn,Bool.false_eq_true,if_false,Option.map_none,
        List.cons.injEq,true_and,layout,Unpadded] at hdata hsize ⊢
      exact ih (k+1) off pos hpos hattr' hdata hsize
    | some v =>
      have hs : h.hasAttribute k = true := by simpa using hattr₀
      have hcol : v.column = c := hc v rfl
      rw [layout_end] at hsize ⊢
      simp only [layout,List.append_assoc,holds_append,List.length_replicate] at hdata
      obtain ⟨hpad,hv,hrest⟩ := hdata
      have hstart := attAlignPointer_eq hpad hv
      have hnext := attAddlengthPointer_eq hv
      rw [hcol] at hstart hnext
      simp only [walkColumns,takeField,attOffsets,hs,if_true,Option.map_some,hstart,hnext,
        List.cons.injEq,Option.some.injEq,Unpadded,hcol]
      cases c with
      | int4 =>
        have hb := Datum.length_bytes_of_int4 hcol
        have hw := Datum.padding_of_int4 hcol off
        have hp := toNat_add_word d pos (by rw [hpos]; omega)
        rw [hpos] at hp
        have hnext' := ih (k+1) (off+v.padding off+v.bytes.length) (pos+fieldSize d pos .int4)
          (by rw [fieldSize,hp]; omega) hattr' hrest (by omega)
        have hfs : fieldStart pos .int4 = off+v.padding off := by
          rw [fieldStart,wordStart,toNat_wordPadding,hpos,hw]
        simpa [hfs] using hnext'
      | varlena =>
        rcases Nat.eq_zero_or_pos (v.padding off) with hz | hz
        · have hsz := size_of_holds (fun i => d.data (off+i)) hcol
            (hv.congr fun i _ => by simp [hz])
          have hvs : (fieldSize d pos .varlena).toNat = v.bytes.length := by
            rw [fieldSize,getVarlenaSize,getVarlena,hpos]
            exact hsz.1
          have hnext' := ih (k+1) (off+v.padding off+v.bytes.length) (pos+fieldSize d pos .varlena)
            (by rw [toNat_add_of_lt (by omega),hvs,hpos]; omega) hattr' hrest (by omega)
          have hfs : fieldStart pos .varlena = off+v.padding off := by
            rw [fieldStart,hpos,hz,Nat.add_zero]
          simpa [hfs,hz] using hnext'
        · -- the walk is at the first pad byte, the field is behind the padding
          have hfs : fieldStart pos .varlena = off := hpos
          have hnz : ¬ v.padding off = 0 := by omega
          simp [hfs,hnz]

end Walking

theorem SampleRow.length_values (r : SampleRow) : r.values.length = 11 :=
  r.typed.length_eq.symm

/-- On every tuple that carries a row of the sample table, the walk of `user_code` finds
every field where PostgreSQL put it, and ends at `data_size`, if and only if no varlena of
the row with a four-byte header has pad bytes in front of it. -/
theorem walk_faithful_iff (r : SampleRow) (h : ItemHeader) (d : ItemData) (hc : Carries r h d) :
    WalkFaithful h d ↔ Unpadded 0 r.values := by
  have hlen := r.length_values
  have h₀ : h.hasAttribute 0 = true := by rw [hc.present 0 (by omega)]; exact r.id_present
  have h₁ : h.hasAttribute 1 = true := by rw [hc.present 1 (by omega)]; exact r.name_present
  obtain ⟨w,hw,hstarts,hpos⟩ := walk_columns (d := d) h₀ h₁
  have hsize := hc.size
  have hlt := d.dataSize.toNat_lt
  have hiff := walkColumns_iff (h := h) r.typed 0 0 0 rfl
    (fun i hi => by simpa using hc.present i hi) hc.data (by omega)
  rw [← hstarts,← hpos,Nat.zero_add,← hsize,UInt32.toNat_inj] at hiff
  rw [← hiff]
  constructor
  · rintro ⟨w',hw',hs,hp⟩
    rw [hw] at hw'
    cases hw'
    exact ⟨hs,hp⟩
  · rintro ⟨hs,hp⟩
    exact ⟨w,hw,hs,hp⟩

def headerOf (n : ℕ) : ItemHeader :=
  ⟨fun i => if i = 20 then 1 else if i = 23 then UInt8.ofNat (2^n-1) else 0⟩

def shortRow : SampleRow where
  values := some (.int4 7)::some (.short [0x61] (by decide))::List.replicate 9 none
  typed := by repeat (first | exact List.Forall₂.nil | refine List.Forall₂.cons (by simp [Datum.column]) ?_)
  id_present := rfl
  name_present := rfl

def shortTuple : ItemData :=
  ⟨headerOf 2,fun i => ([7,0,0,0,5,0x61] : List UInt8).getD i 0xff,6⟩

theorem walk_faithful_shortRow : WalkFaithful (headerOf 2) shortTuple ↔ Unpadded 0 shortRow.values :=
  walk_faithful_iff shortRow (headerOf 2) shortTuple
    ⟨by decide,rfl,rfl⟩

/-- A two-byte name puts the next varlena at offset 6, where its four-byte header needs two
pad bytes. -/
def paddedRow : SampleRow where
  values := some (.int4 7)::some (.short [0x61] (by decide))::
    some (.long false [0x62] (by decide))::List.replicate 8 none
  typed := by repeat (first | exact List.Forall₂.nil | refine List.Forall₂.cons (by simp [Datum.column]) ?_)
  id_present := rfl
  name_present := rfl

def paddedTuple : ItemData :=
  ⟨headerOf 3,fun i => ([7,0,0,0,5,0x61,0,0,20,0,0,0,0x62] : List UInt8).getD i 0xff,13⟩

theorem not_walk_faithful_paddedTuple :
    Carries paddedRow (headerOf 3) paddedTuple ∧ ¬ WalkFaithful (headerOf 3) paddedTuple := by
  refine ⟨⟨by decide,rfl,rfl⟩,?_⟩
  rintro ⟨w,hw,hs,-⟩
  have hw' : (walk (headerOf 3) paddedTuple).map Walk.starts = .ok w.starts := by rw [hw]; rfl
  rw [hs] at hw'
  revert hw'
  decide

end PageDumper
