import PageDumper.SqlRow
import PageDumper.ToastedText
import PageDumper.Lib.Outcome

/-! What the stored fields of a row stand for, and the text that `user_code` renders for them. A
TOAST pointer stands for a value of the toast file, which `fetch_data` returns however many
calls were made before; a pointer to a value that is lost makes the rendering throw. -/
namespace PageDumper
open Memory Words Reader RowTable Outcome

/-! ### Values of the toast file -/

structure MapOf (img : ToastImage) (toast : ToastMap) : Prop where
  stores : Stores toast.positions (img.recordsBefore img.pages 0)
  file : toast.file.file = img.file
  good : toast.file.failbit = false

/-- The value that a pointer into the toast file stands for: the chunks themselves, or the text
that the stream in them expands to. -/
inductive Fetches (img : ToastImage) (p : ToastPointer) : List UInt8 → Prop
  | plain {payloads : List (List UInt8)} : p.isCompressed = false →
    img.Value p.pointer.vaValueid payloads → payloads.flatten.length < 2^32-4 →
    Fetches img p payloads.flatten
  | compressed {payloads : List (List UInt8)} (e : PglzStream) : p.isCompressed = true →
    img.Value p.pointer.vaValueid payloads →
    payloads.flatten = leBytes (UInt32.ofNat e.expansion.length) ++ e.bytes →
    e.expansion.length+1024 < 2^31 → Unmarked e.expansion →
    CoversText e (varsize (p.pointer.vaRawsize <<< 2)) → Fetches img p e.expansion

def Lost (img : ToastImage) (p : ToastPointer) : Prop :=
  ∀ k i, Slot img.file k i → (img.chunk k i).chunkId ≠ p.pointer.vaValueid

section Fetching

variable {img : ToastImage} {toast : ToastMap} {p : ToastPointer} {s : List UInt8}

theorem MapOf.after (hm : MapOf img toast) {payloads : List (List UInt8)}
    (hv : img.Value p.pointer.vaValueid payloads) {heap : Heap}
    (hok : (p.fetchData toast heap).outcome = .ok s) :
    MapOf img { toast with file := (p.fetchData toast heap).stream } := by
  obtain ⟨datas,hrow,hcov,-⟩ := hv.row hm.stores
  have hstream := @fetchData_stream p toast heap datas hrow (by rw [Fetch.aborted,hok])
  refine ⟨hm.stores,?_,?_⟩
  · rw [hstream,gather_file]
    exact hm.file
  · rw [hstream,gather_failbit 0 hm.good,hm.file]
    simpa using hcov

theorem Fetches.fetchData (h : Fetches img p s) (hm : MapOf img toast) (heap : Heap) :
    (p.fetchData toast heap).outcome = .ok s ∧
      MapOf img { toast with file := (p.fetchData toast heap).stream } := by
  cases h with
  | @plain payloads hc hv hlen =>
    have hok : (p.fetchData toast heap).outcome = .ok payloads.flatten := by
      obtain ⟨datas,hrow,hcov,hextract⟩ := hv.row hm.stores
      have hl := congrArg List.length hextract
      rw [length_extract,sum_ranges] at hl
      rw [fetchData_plain hrow (by omega) hc,gather_covered 0 hm.good (by rw [hm.file]; exact hcov),hm.file]
      exact congrArg Except.ok hextract
    exact ⟨hok,hm.after hv hok⟩
  | @compressed payloads e hc hv hbytes hlen hun hcover =>
    have hstored : StoredCompressed toast p e := by
      obtain ⟨datas,hrow,hcov,hextract⟩ := hv.row hm.stores
      exact ⟨hm.good,⟨datas,hrow,hm.file ▸ hcov,by rw [hm.file,hextract,hbytes]⟩,by omega,hc⟩
    have hok := hstored.outcome hlen hun hcover heap
    exact ⟨hok,hm.after hv hok⟩

theorem Lost.fetchData (h : Lost img p) (hm : MapOf img toast) (heap : Heap) :
    p.fetchData toast heap =
      ⟨.error (.throw (.runtimeError "TOAST not found")),toast.file,[],none,[],[]⟩ := by
  refine fetchData_unknown (hm.stores.eq_none fun j c hmem => ?_)
  obtain ⟨k,i,hs,-,he⟩ := hmem
  simp only [ToastImage.record,Prod.mk.injEq] at he
  exact h k i hs he.1.symm

end Fetching

/-! ### Contents of a stored varlena -/

def toastPointer (pointer : List UInt8) : ToastPointer := ⟨fun i => (18::pointer).getD i 0⟩

theorem fetchData_congr {p p' : ToastPointer} (h : p.pointer = p'.pointer) (toast : ToastMap) (heap : Heap) :
    p.fetchData toast heap = p'.fetchData toast heap := by
  have hc : p.isCompressed = p'.isCompressed := by rw [ToastPointer.isCompressed,ToastPointer.isCompressed,h]
  simp only [ToastPointer.fetchData,h,hc]

theorem pointer_getToastPointer {mem : ℕ → UInt8} {pointer : List UInt8} (hlen : pointer.length = 16)
    (h : Holds mem 0 (0x01::18::pointer)) :
    (Varlena.getToastPointer ⟨mem⟩).pointer = (toastPointer pointer).pointer := by
  obtain ⟨-,hrest⟩ := holds_cons.mp h
  have hall : window mem 1 (18::pointer).length = 18::pointer := hrest
  have hcell : ∀ i < 17, mem (1+i) = (18::pointer).getD i 0 := by
    intro i hi
    rw [← hall,getD_window mem 1 0 (by rw [List.length_cons]; omega)]
  have hword : ∀ a, a+4 ≤ 17 →
      le32 (Varlena.getToastPointer ⟨mem⟩).mem a = le32 (toastPointer pointer).mem a :=
    fun a ha => le32_congr fun i hi => hcell _ (by omega)
  simp only [ToastPointer.pointer,hword 1 (by omega),hword 5 (by omega),hword 9 (by omega),
    hword 13 (by omega)]

/-- What the code takes for the contents of a stored varlena. -/
inductive Contents (img : ToastImage) : Datum → Except Stop (List UInt8) → Prop
  | short (payload : List UInt8) (bound : payload.length ≤ 126) :
    Contents img (.short payload bound) (.ok payload)
  | long (payload : List UInt8) (bound : payload.length+4 < 2^30) :
    Contents img (.long false payload bound) (.ok payload)
  | inlineCompressed (payload : List UInt8) (bound : payload.length+4 < 2^30) :
    Contents img (.long true payload bound) (.ok (bytesFrom "COMPRESSED"))
  | fetched (pointer : List UInt8) (bound : pointer.length = 16) {s : List UInt8} :
    Fetches img (toastPointer pointer) s → Contents img (.toast pointer bound) (.ok s)
  | lost (pointer : List UInt8) (bound : pointer.length = 16) : Lost img (toastPointer pointer) →
    Contents img (.toast pointer bound) (.error (.throw (.runtimeError "TOAST not found")))

theorem fetchToast_run (p : ToastPointer) (heap : Heap) (toast : ToastMap) :
    (fetchToast p heap).run.run (some toast) = ((p.fetchData toast heap).outcome,
      some { toast with file := (p.fetchData toast heap).stream }) := by
  have hget : (ExceptT.run (get : Render (Option ToastMap))).run (some toast) =
      (.ok (some toast),some toast) := rfl
  rw [fetchToast,ExceptT.run_bind,StateT.run_bind,hget]
  change StateT.run (ExceptT.run (_ >>= _)) _ = _
  cases (p.fetchData toast heap).outcome <;> rfl

/-- The state of a rendering: the static map is set, and it is the one of the file. -/
def Ready (img : ToastImage) (σ : Option ToastMap) : Prop := ∃ toast, σ = some toast ∧ MapOf img toast

theorem lenType_of_holds {mem : ℕ → UInt8} {v : Datum} (h : Holds mem 0 v.bytes) :
    match v with
    | .int4 _ => True
    | .short _ _ => (Varlena.mk mem).lenType = .oneByte
    | .long c _ _ => (Varlena.mk mem).lenType = if c then .compressed else .normal
    | .toast _ _ => (Varlena.mk mem).lenType = .toasted := by
  cases v with
  | int4 w => trivial
  | short payload bound =>
    simp only [Datum.bytes,holds_cons] at h
    have h₀ : (mem 0).toNat = 2*(payload.length+1)+1 := by
      rw [h.1,UInt8.toNat_ofNat']
      omega
    simp only [Varlena.lenType_eq]
    rw [if_pos (by omega),if_neg (by omega)]
  | long c payload bound =>
    simp only [Datum.bytes,holds_append] at h
    have hw : (le32 mem 0).toNat = 4*(payload.length+4)+if c then 2 else 0 := by
      rw [le32_of_holds h.1,UInt32.toNat_ofNat']
      split <;> omega
    have h₀ := toNat_le32_mod mem 0
    simp only [Varlena.lenType_eq]
    cases c with
    | true =>
      simp only [if_true] at hw
      rw [if_neg (by omega),if_neg (by omega),if_pos rfl]
    | false =>
      simp only [Bool.false_eq_true,if_false] at hw
      rw [if_neg (by omega),if_pos (by omega),if_neg (by simp)]
  | toast pointer bound =>
    simp only [Datum.bytes,holds_cons] at h
    have h₀ : (mem 0).toNat = 1 := by rw [h.1]; rfl
    simp only [Varlena.lenType_eq]
    rw [if_pos (by omega),if_pos h₀]

theorem window_of_holds {mem : ℕ → UInt8} {v : Datum} (h : Holds mem 0 v.bytes) {n : ℕ}
    (hn : n = v.payload.length) : window mem v.headerSize n = v.payload := by
  obtain ⟨header,hb,hl⟩ := v.bytes_split
  rw [hb,holds_append,Nat.zero_add,hl] at h
  rw [hn]
  exact h.2

/-- `build_bytes` gives the contents, and keeps the map usable for the next field. -/
theorem buildBytes_gives {img : ToastImage} {v : Datum} {r : Except Stop (List UInt8)}
    (hr : Contents img v r) {mem : ℕ → UInt8} (h : Holds mem 0 v.bytes) (heap : Heap) :
    Gives (Ready img) ((Varlena.mk mem).buildBytes heap) r := by
  have htype := lenType_of_holds h
  cases hr with
  | short payload bound =>
    have hs := (size_of_holds mem rfl h).1
    have hsub : ((Varlena.mk mem).size-1).toNat = payload.length := by
      rw [UInt32.toNat_sub_of_le _ _ (by rw [UInt32.le_iff_toNat_le,hs]; exact Nat.le_add_left ..),hs]
      rfl
    rw [Varlena.buildBytes,htype]
    have hw := window_of_holds h hsub
    exact hw ▸ gives_pure _
  | long payload bound =>
    have hs := (size_of_holds mem rfl h).1
    rw [Datum.length_bytes] at hs
    have hsub : ((Varlena.mk mem).size-4).toNat = payload.length := by
      rw [UInt32.toNat_sub_of_le _ _ (by rw [UInt32.le_iff_toNat_le,hs]; exact Nat.le_add_right ..),hs]
      exact Nat.add_sub_cancel_left ..
    rw [Varlena.buildBytes,htype]
    have hw := window_of_holds h hsub
    exact hw ▸ gives_pure _
  | inlineCompressed payload bound =>
    rw [Varlena.buildBytes,htype]
    exact gives_pure _
  | fetched pointer bound hf =>
    rw [Varlena.buildBytes,htype]
    rintro σ ⟨toast,rfl,hm⟩
    obtain ⟨hok,hm'⟩ := hf.fetchData hm heap
    rw [← fetchData_congr (pointer_getToastPointer bound h) toast heap] at hok hm'
    exact ⟨_,(fetchToast_run _ _ _).trans (Prod.ext hok rfl),_,rfl,hm'⟩
  | lost pointer bound hl =>
    rw [Varlena.buildBytes,htype]
    rintro σ ⟨toast,rfl,hm⟩
    have hlost := hl.fetchData hm heap
    rw [← fetchData_congr (pointer_getToastPointer bound h) toast heap] at hlost
    exact ⟨_,(fetchToast_run _ _ _).trans (by rw [hlost]),_,rfl,hm⟩

/-! ### Fields -/

/-- The SQL value that stands for a column, or the exception that its rendering throws. -/
inductive Resolves (img : ToastImage) : Option Datum → Except Stop SqlValue → Prop
  | null : Resolves img none (.ok .null)
  | integer (w : UInt32) : Resolves img (some (.int4 w)) (.ok (.integer (int32 w)))
  | contents {v : Datum} {r : Except Stop (List UInt8)} : Contents img v r →
    Resolves img (some v) (r.map SqlValue.string)

def FieldHolds (d : ItemData) (start : Option ℕ) (v : Option Datum) : Prop :=
  start.isSome = v.isSome ∧ ∀ a ∈ start, ∀ x ∈ v, Holds d.data a x.bytes

section Fields

variable {h : ItemHeader} {d : ItemData}

theorem attOffsets_holds {cs : List Column} {vs : List (Option Datum)}
    (htyped : List.Forall₂ (fun c v => ∀ x ∈ v, Datum.column x = c) cs vs) (k off : ℕ)
    (hattr : ∀ i < vs.length, h.hasAttribute (k+i) = (vs[i]?.join).isSome)
    (hdata : Holds d.data off (layout off vs)) :
    List.Forall₂ (FieldHolds d) (attOffsets h.hasAttribute d.data k cs off).1 vs := by
  induction htyped generalizing k off with
  | nil => exact .nil
  | @cons c v cs vs hc ht ih =>
    have hattr₀ := hattr 0 (by simp)
    have hattr' : ∀ i < vs.length, h.hasAttribute (k+1+i) = (vs[i]?.join).isSome := by
      intro i hi
      have := hattr (i+1) (by simpa using hi)
      rwa [show k+1+i = k+(i+1) by omega]
    cases v with
    | none =>
      have hn : h.hasAttribute k = false := by simpa using hattr₀
      simp only [attOffsets,hn,Bool.false_eq_true,if_false]
      exact .cons ⟨rfl,fun a ha => by cases ha⟩ (ih (k+1) off hattr' hdata)
    | some v =>
      have hs : h.hasAttribute k = true := by simpa using hattr₀
      simp only [layout,List.append_assoc,holds_append,List.length_replicate] at hdata
      obtain ⟨hpad,hv,hrest⟩ := hdata
      have hstart := attAlignPointer_eq hpad hv
      have hnext := attAddlengthPointer_eq hv
      rw [hc v rfl] at hstart hnext
      simp only [attOffsets,hs,if_true,hstart,hnext]
      refine .cons ⟨rfl,fun a ha x hx => ?_⟩ (ih (k+1) _ hattr' hrest)
      cases ha
      cases hx
      exact hv

/-- On a row without pad bytes in front of a varlena the walk takes every value where it lies, and
ends where the data ends. -/
theorem walk_holds {r : SampleRow} (hc : Carries r h d) (hu : Unpadded 0 r.values) :
    ∃ w, walk h d = .ok w ∧ w.pos = d.dataSize ∧ List.Forall₂ (FieldHolds d) w.starts r.values := by
  have hlen := r.length_values
  have h₀ : h.hasAttribute 0 = true := by rw [hc.present 0 (by omega)]; exact r.id_present
  have h₁ : h.hasAttribute 1 = true := by rw [hc.present 1 (by omega)]; exact r.name_present
  obtain ⟨w,hw,hstarts,hpos⟩ := walk_columns (d := d) h₀ h₁
  have hlt := d.dataSize.toNat_lt
  have hpresent : ∀ i < r.values.length, h.hasAttribute (0+i) = (r.values[i]?.join).isSome :=
    fun i hi => by simpa using hc.present i hi
  obtain ⟨hoffsets,hend⟩ := (walkColumns_iff (h := h) r.typed 0 0 0 rfl hpresent hc.data
    (by rw [Nat.zero_add,← hc.size]; exact hlt)).mpr hu
  refine ⟨w,hw,?_,?_⟩
  · rw [← UInt32.toNat_inj,hpos,hend,Nat.zero_add,hc.size]
  · rw [hstarts,hoffsets]
    exact attOffsets_holds r.typed 0 0 hpresent hc.data

theorem sqlVarlena_gives {img : ToastImage} {pos : Option UInt32} {v : Option Datum}
    {r : Except Stop SqlValue} (hr : Resolves img v r) (hcol : ∀ x ∈ v, Datum.column x = .varlena)
    (hf : FieldHolds d (pos.map (fieldStart · .varlena)) v) (heap : Heap) :
    Gives (Ready img) (sqlVarlena (pos.map d.getVarlena) heap) (r.map SqlValue.text) := by
  obtain ⟨hsome,hholds⟩ := hf
  cases hr with
  | null =>
    cases pos with
    | some a => cases hsome
    | none => exact gives_pure _
  | integer w => cases hcol _ rfl
  | @contents v r hcont =>
    cases pos with
    | none => cases hsome
    | some a =>
      have hmem : Holds (d.getVarlena a).mem 0 v.bytes :=
        (hholds _ rfl v rfl).congr fun i _ => by rw [Nat.zero_add]; rfl
      have hbuild := buildBytes_gives hcont hmem heap
      have hgives := hbuild.bind (g := fun s => .ok (literal s)) fun s _ => gives_pure (literal s)
      cases r <;> exact hgives

theorem sqlInteger_resolves {img : ToastImage} {pos : Option UInt32} {v : Option Datum}
    {r : Except Stop SqlValue} (hr : Resolves img v r) (hcol : ∀ x ∈ v, Datum.column x = .int4)
    (hf : FieldHolds d (pos.map (fieldStart · .int4)) v) :
    ∃ x, r = .ok x ∧ sqlInteger (pos.elim 0 d.getInteger) v.isSome = x.text := by
  obtain ⟨hsome,hholds⟩ := hf
  cases hr with
  | null => exact ⟨.null,rfl,rfl⟩
  | integer w =>
    cases pos with
    | none => cases hsome
    | some a =>
      have hw : le32 d.data (ItemData.wordStart a) = w := le32_of_holds (hholds _ rfl _ rfl)
      refine ⟨.integer (int32 w),rfl,?_⟩
      rw [Option.elim_some,ItemData.getInteger,hw]
      rfl
  | @contents v r hcont => cases hcont <;> cases hcol _ rfl

end Fields

/-! ### Rows -/

/-- What is printed for the point: its value is not looked at. -/
def pointText (present : Bool) : List UInt8 :=
  (if present then [] else bytesFrom "NULL") ++ bytesFrom "NULL"

def rowText (vs : List SqlValue) (point : Bool) : List UInt8 :=
  bytesFrom "\t(" ++ (bytesFrom ", ").intercalate (vs.map SqlValue.text ++ [pointText point]) ++ bytesFrom ")"

section Outcomes

variable {α β γ : Type}

theorem map_bind (r : Except Stop α) (t : α → β) (f : β → Except Stop γ) :
    r.map t >>= f = r >>= fun x => f (t x) := by
  cases r <;> rfl

theorem ok_bind (a : α) (f : α → Except Stop β) : (.ok a : Except Stop α) >>= f = f a := rfl

theorem map_mapM_cons (r : Except Stop α) (rs : List (Except Stop α)) (f : List α → β) :
    ((r::rs).mapM id).map f = r >>= fun x => (rs.mapM id).map fun xs => f (x::xs) := by
  rw [List.mapM_cons]
  cases r with
  | error e => rfl
  | ok x => cases rs.mapM id <;> rfl

end Outcomes

/-- A row is rendered as the texts of its values, unless one of them is lost. -/
theorem sqlRow_gives {img : ToastImage} {r : SampleRow} {h : ItemHeader} {d : ItemData}
    (hc : Carries r h d) (hu : Unpadded 0 r.values) {vals : List (Except Stop SqlValue)}
    (hv : List.Forall₂ (Resolves img) (r.values.take 10) vals) (heap : ℕ → Heap) :
    ∃ w, walk h d = .ok w ∧ w.pos = d.dataSize ∧ Gives (Ready img) (sqlRow ⟨h,d,heap⟩ w)
      ((vals.mapM id).map fun vs => rowText vs (r.values[10]?.join).isSome) := by
  obtain ⟨w,hw,hpos,hf⟩ := walk_holds hc hu
  refine ⟨w,hw,hpos,?_⟩
  have hpresent := hc.present
  have htyped := r.typed
  have hid := r.id_present
  have hname := r.name_present
  generalize r.values = values at hv hf hpresent htyped hid hname
  simp only [columns,List.forall₂_cons_left_iff,List.forall₂_nil_left_iff] at htyped
  obtain ⟨v₀,_,c₀,⟨v₁,_,c₁,⟨v₂,_,c₂,⟨v₃,_,c₃,⟨v₄,_,c₄,⟨v₅,_,c₅,⟨v₆,_,c₆,⟨v₇,_,c₇,⟨v₈,_,c₈,⟨v₉,_,c₉,
    ⟨v₁₀,_,c₁₀,rfl,rfl⟩,rfl⟩,rfl⟩,rfl⟩,rfl⟩,rfl⟩,rfl⟩,rfl⟩,rfl⟩,rfl⟩,rfl⟩ := htyped
  simp only [Walk.starts,List.forall₂_cons] at hf
  obtain ⟨f₀,f₁,f₂,f₃,f₄,f₅,f₆,f₇,f₈,f₉,f₁₀,-⟩ := hf
  simp only [List.take_succ_cons,List.take_zero,List.forall₂_cons_left_iff,
    List.forall₂_nil_left_iff] at hv
  obtain ⟨r₀,_,e₀,⟨r₁,_,e₁,⟨r₂,_,e₂,⟨r₃,_,e₃,⟨r₄,_,e₄,⟨r₅,_,e₅,⟨r₆,_,e₆,⟨r₇,_,e₇,⟨r₈,_,e₈,⟨r₉,_,e₉,
    rfl,rfl⟩,rfl⟩,rfl⟩,rfl⟩,rfl⟩,rfl⟩,rfl⟩,rfl⟩,rfl⟩,rfl⟩ := hv
  have h₅ : h.hasAttribute 5 = v₅.isSome := hpresent 5 (by simp)
  have h₈ : h.hasAttribute 8 = v₈.isSome := hpresent 8 (by simp)
  have f₀' : FieldHolds d ((some w.id).map (fieldStart · .int4)) v₀ := f₀
  have f₁' : FieldHolds d ((some w.name).map (fieldStart · .varlena)) v₁ := f₁
  obtain ⟨x₀,rfl,t₀⟩ := sqlInteger_resolves e₀ c₀ f₀'
  obtain ⟨x₅,rfl,t₅⟩ := sqlInteger_resolves e₅ c₅ f₅
  obtain ⟨x₈,rfl,t₈⟩ := sqlInteger_resolves e₈ c₈ f₈
  have hid' : v₀.isSome = true := hid
  rw [hid'] at t₀
  have hpoint : sqlGeometric (w.point.map d.getVarlena) = pointText v₁₀.isSome := by
    obtain ⟨hsome,-⟩ := f₁₀
    rw [Option.isSome_map] at hsome
    rw [sqlGeometric,pointText,Option.isNone_map,← hsome]
    cases w.point <;> rfl
  have hrow := (sqlVarlena_gives e₁ c₁ f₁' (heap 1)).bind fun name _ =>
    (sqlVarlena_gives e₂ c₂ f₂ (heap 2)).bind fun text1 _ =>
    (sqlVarlena_gives e₃ c₃ f₃ (heap 3)).bind fun text2 _ =>
    (sqlVarlena_gives e₄ c₄ f₄ (heap 4)).bind fun text3 _ =>
    (sqlVarlena_gives e₆ c₆ f₆ (heap 6)).bind fun text4 _ =>
    (sqlVarlena_gives e₇ c₇ f₇ (heap 7)).bind fun text5 _ =>
    (sqlVarlena_gives e₉ c₉ f₉ (heap 9)).bind fun text6 _ =>
    gives_pure (bytesFrom "\t(" ++ x₀.text ++ bytesFrom ", " ++ name ++ bytesFrom ", " ++ text1 ++
      bytesFrom ", " ++ text2 ++ bytesFrom ", " ++ text3 ++ bytesFrom ", " ++ x₅.text ++
      bytesFrom ", " ++ text4 ++ bytesFrom ", " ++ text5 ++ bytesFrom ", " ++ x₈.text ++
      bytesFrom ", " ++ text6 ++ bytesFrom ", " ++ pointText v₁₀.isSome ++ bytesFrom ")")
  have ht₀ : sqlInteger (int32 (d.getUnsigned w.id)) true = x₀.text := t₀
  convert hrow using 1
  · simp only [sqlRow,h₅,h₈,ht₀,t₅,t₈,hpoint]
  · simp only [map_mapM_cons,map_bind,ok_bind]
    iterate 7 refine bind_congr fun _ => ?_
    rw [List.mapM_nil]
    refine congrArg Except.ok ?_
    simp only [rowText,List.map_cons,List.map_nil,List.cons_append,List.nil_append,
      Grouping.intercalate_cons,List.flatMap_cons,List.flatMap_nil,List.append_nil,List.append_assoc]
    rfl

end PageDumper
