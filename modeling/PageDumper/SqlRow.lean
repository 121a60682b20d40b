import PageDumper.Script
import PageDumper.Lib.SqlText

/-! The text of a row as an SQL lexer reads it: the string literals that `sql_varlena`
writes, and the list of values between the parentheses of a row. -/
namespace PageDumper
open Words SqlText

/-! ### String literals -/

def literal (s : List UInt8) : List UInt8 := bytesFrom "E'" ++ s.flatMap escapeByte ++ bytesFrom "'"

/-- The escaped bytes and the closing quote are read as the bytes. The induction is over the
bytes: each one leaves the reader at the start of the next, whatever that is. -/
theorem readString_escaped (s : List UInt8) {rest : List UInt8} (h : rest.head? ≠ some 0x27) :
    readString (s.flatMap escapeByte ++ 0x27::rest) = some (s,rest) := by
  induction s with
  | nil => exact readString_close h
  | cons b s ih =>
    rw [List.flatMap_cons,List.append_assoc]
    by_cases hb : b = 0x5c
    · subst hb
      rw [show escapeByte 0x5c = [0x5c,0x5c] from rfl]
      simp only [List.cons_append,List.nil_append,readString_backslash,ih,push,Option.map_some]
    · by_cases hq : b = 0x27
      · subst hq
        rw [show escapeByte 0x27 = [0x27,0x27] from rfl]
        simp only [List.cons_append,List.nil_append,readString_quote,ih,push,Option.map_some]
      · rw [escapeByte,if_neg hb,if_neg hq]
        simp only [List.cons_append,List.nil_append,readString_plain hb hq,ih,push,Option.map_some]

theorem literal_append (s rest : List UInt8) :
    literal s ++ rest = 0x45::0x27::(s.flatMap escapeByte ++ 0x27::rest) := by
  rw [literal,show bytesFrom "E'" = [0x45,0x27] from rfl,show bytesFrom "'" = [0x27] from rfl]
  simp

theorem readLiteral_literal (s rest : List UInt8) (h : rest.head? ≠ some 0x27) :
    readLiteral (literal s ++ rest) = some (s,rest) := by
  rw [literal_append,readLiteral,if_pos ⟨rfl,rfl⟩,readString_escaped s h]

theorem literal_injective : Function.Injective literal := by
  intro s s' h
  have hs := readLiteral_literal s [] (by simp)
  rw [h,readLiteral_literal s' [] (by simp)] at hs
  cases hs
  rfl

/-! ### Computations that return -/

theorem render_bind {α β : Type} {x : Render α} {f : α → Render β} {σ σ₂ : Option ToastMap} {b : β}
    (h : (x >>= f).run.run σ = (.ok b,σ₂)) :
    ∃ a σ₁, x.run.run σ = (.ok a,σ₁) ∧ (f a).run.run σ₁ = (.ok b,σ₂) := by
  rw [ExceptT.run_bind,StateT.run_bind] at h
  cases hx : x.run.run σ with
  | mk r σ₁ =>
    simp only [hx] at h
    cases r with
    | error e => cases h
    | ok a => exact ⟨a,σ₁,rfl,h⟩

theorem render_pure {α : Type} {a a' : α} {σ σ' : Option ToastMap}
    (h : (pure a : Render α).run.run σ = (.ok a',σ')) : a' = a := by
  cases h
  rfl

theorem sqlVarlena_some {v : Varlena} {heap : Heap} {σ σ' : Option ToastMap} {s : List UInt8}
    (h : (v.buildBytes heap).run.run σ = (.ok s,σ')) :
    (sqlVarlena (some v) heap).run.run σ = (.ok (literal s),σ') := by
  simp only [sqlVarlena]
  rw [ExceptT.run_bind,StateT.run_bind,h]
  rfl

/-- For all bytes `s`: what `sql_varlena` writes for a value with these bytes is read back as `s`
by the rules of `E'...'`, whatever follows it but a quote, and the reading takes exactly the
text written; and for other bytes another text is written. -/
theorem sqlVarlena_lossless (s : List UInt8) :
    (∀ (v : Varlena) (heap : Heap) (σ σ' : Option ToastMap), (v.buildBytes heap).run.run σ = (.ok s,σ') →
      (sqlVarlena (some v) heap).run.run σ = (.ok (literal s),σ')) ∧
    (∀ rest : List UInt8, rest.head? ≠ some 0x27 → readLiteral (literal s ++ rest) = some (s,rest)) ∧
    ∀ s' : List UInt8, s' ≠ s → literal s' ≠ literal s :=
  ⟨fun _ _ _ _ h => sqlVarlena_some h,fun rest h => readLiteral_literal s rest h,
    fun _ hne h => hne (literal_injective h)⟩

/-! ### Values of a row -/

inductive SqlValue
  | null | integer (i : ℤ) | string (s : List UInt8)
  deriving DecidableEq

namespace SqlValue

def text : SqlValue → List UInt8
  | .null => bytesFrom "NULL"
  | .integer i => bytesFrom (toString i)
  | .string s => literal s

def token : SqlValue → Lexeme
  | .null => .word (bytesFrom "NULL")
  | .integer i => .integer (bytesFrom (toString i))
  | .string s => .string s

def isNull (v : SqlValue) : Bool := v = .null

theorem isDigit_digits {n : ℕ} :
    ∀ b ∈ (Nat.toDigits 10 n).map (fun c => UInt8.ofNat c.toNat), isDigit b = true := by
  intro b hb
  obtain ⟨c,hc,rfl⟩ := List.mem_map.mp hb
  have hd := Nat.isDigit_of_mem_toDigits (by omega) (by omega) hc
  simp only [Char.isDigit,ge_iff_le,Bool.and_eq_true,decide_eq_true_eq,UInt32.le_iff_toNat_le] at hd
  have h : (UInt8.ofNat c.toNat).toNat = c.val.toNat := by
    rw [UInt8.toNat_ofNat',Nat.mod_eq_of_lt]
    · rfl
    · exact Nat.lt_of_le_of_lt hd.2 (by decide)
  simp only [isDigit,Bool.and_eq_true,decide_eq_true_eq,UInt8.le_iff_toNat_le,h,UInt8.reduceToNat]
  exact hd

theorem reads_toString (i : ℤ) : Reads (bytesFrom (toString i)) (.integer (bytesFrom (toString i))) := by
  have hne : ∀ n, (Nat.toDigits 10 n).map (fun c => UInt8.ofNat c.toNat) ≠ [] := by
    intro n h
    exact Nat.toDigits_ne_nil (List.map_eq_nil_iff.mp h)
  cases i with
  | ofNat n =>
    have ht : bytesFrom (toString (Int.ofNat n)) =
        (Nat.toDigits 10 n).map (fun c => UInt8.ofNat c.toNat) := by
      rw [bytesFrom,Int.toString_eq_repr,Int.repr,Nat.toList_repr]
    rw [ht]
    have hd := isDigit_digits (n := n)
    cases hl : (Nat.toDigits 10 n).map (fun c => UInt8.ofNat c.toNat) with
    | nil => exact absurd hl (hne n)
    | cons b digits =>
      rw [hl] at hd
      exact reads_integer (.inl (hd b (by simp))) fun c hc => hd c (by simp [hc])
  | negSucc n =>
    have ht : bytesFrom (toString (Int.negSucc n)) =
        0x2d::(Nat.toDigits 10 (n+1)).map (fun c => UInt8.ofNat c.toNat) := by
      rw [bytesFrom,Int.toString_eq_repr,Int.repr,String.toList_append,Nat.toList_repr]
      rfl
    rw [ht]
    exact reads_integer (.inr ⟨rfl,hne _⟩) isDigit_digits

theorem reads (v : SqlValue) : Reads v.text v.token := by
  cases v with
  | null =>
    rw [text,token,show bytesFrom "NULL" = [0x4e,0x55,0x4c,0x4c] from rfl]
    exact reads_word rfl (by decide) (List.all_eq_true.mp rfl)
  | integer i => exact reads_toString i
  | string s =>
    have h := literal_append s []
    rw [List.append_nil] at h
    rw [text,h]
    refine reads_literal fun rest hrest => ?_
    rw [List.append_assoc]
    exact readString_escaped s hrest

end SqlValue

theorem sqlVarlena_value {varlena : Option Varlena} {heap : Heap} {σ σ' : Option ToastMap}
    {text : List UInt8} (h : (sqlVarlena varlena heap).run.run σ = (.ok text,σ')) :
    ∃ v : SqlValue, text = v.text ∧ v.isNull = varlena.isNone := by
  cases varlena with
  | none =>
    cases h
    exact ⟨.null,rfl,rfl⟩
  | some v =>
    obtain ⟨s,σ₁,hs,-⟩ := render_bind h
    rw [sqlVarlena_some hs] at h
    cases h
    exact ⟨.string s,rfl,rfl⟩

theorem sqlInteger_value (number : ℤ) (notNull : Bool) :
    ∃ v : SqlValue, sqlInteger number notNull = v.text ∧ v.isNull = !notNull := by
  cases notNull with
  | false => exact ⟨.null,rfl,rfl⟩
  | true => exact ⟨.integer number,rfl,rfl⟩

/-- The text of `sql_geometric` is one word, although it need not be the word `NULL`. -/
theorem reads_sqlGeometric (varlena : Option Varlena) :
    Reads (sqlGeometric varlena) (.word (sqlGeometric varlena)) := by
  cases varlena with
  | none =>
    rw [show sqlGeometric none = [0x4e,0x55,0x4c,0x4c,0x4e,0x55,0x4c,0x4c] from rfl]
    exact reads_word rfl (by decide) (List.all_eq_true.mp rfl)
  | some v =>
    rw [show sqlGeometric (some v) = [0x4e,0x55,0x4c,0x4c] from rfl]
    exact reads_word rfl (by decide) (List.all_eq_true.mp rfl)

theorem sqlRow_values {c : UserCall} {w : Walk} {σ σ' : Option ToastMap} {row : List UInt8}
    (h : (sqlRow c w).run.run σ = (.ok row,σ')) :
    ∃ (v : SqlValue) (vs : List SqlValue),
      row = 0x09::0x28::(v.text ++ (((vs.map SqlValue.text ++
        [sqlGeometric (w.point.map c.itemdata.getVarlena)]).flatMap
          fun text => 0x2c::0x20::text) ++ [0x29])) ∧
      (v::vs).map SqlValue.isNull = [false,false,w.text1.isNone,w.text2.isNone,w.text3.isNone,
        !c.itemheader.hasAttribute 5,w.text4.isNone,w.text5.isNone,!c.itemheader.hasAttribute 8,
        w.text6.isNone] := by
  simp only [sqlRow] at h
  obtain ⟨name,σ₁,h₁,h⟩ := render_bind h
  obtain ⟨text1,σ₂,h₂,h⟩ := render_bind h
  obtain ⟨text2,σ₃,h₃,h⟩ := render_bind h
  obtain ⟨text3,σ₄,h₄,h⟩ := render_bind h
  obtain ⟨text4,σ₅,h₅,h⟩ := render_bind h
  obtain ⟨text5,σ₆,h₆,h⟩ := render_bind h
  obtain ⟨text6,σ₇,h₇,h⟩ := render_bind h
  obtain ⟨v₁,rfl,n₁⟩ := sqlVarlena_value h₁
  obtain ⟨v₂,rfl,n₂⟩ := sqlVarlena_value h₂
  obtain ⟨v₃,rfl,n₃⟩ := sqlVarlena_value h₃
  obtain ⟨v₄,rfl,n₄⟩ := sqlVarlena_value h₄
  obtain ⟨v₅,rfl,n₅⟩ := sqlVarlena_value h₅
  obtain ⟨v₆,rfl,n₆⟩ := sqlVarlena_value h₆
  obtain ⟨v₇,rfl,n₇⟩ := sqlVarlena_value h₇
  obtain ⟨v₀,t₀,n₀⟩ := sqlInteger_value (int32 (c.itemdata.getUnsigned w.id)) true
  obtain ⟨v₈,t₈,n₈⟩ := sqlInteger_value (w.number1.elim 0 c.itemdata.getInteger)
    (c.itemheader.hasAttribute 5)
  obtain ⟨v₉,t₉,n₉⟩ := sqlInteger_value (w.number2.elim 0 c.itemdata.getInteger)
    (c.itemheader.hasAttribute 8)
  refine ⟨v₀,[v₁,v₂,v₃,v₄,v₈,v₅,v₆,v₉,v₇],?_,?_⟩
  · rw [render_pure h,t₀,t₈,t₉]
    simp only [show bytesFrom "\t(" = [0x09,0x28] from rfl,show bytesFrom ", " = [0x2c,0x20] from rfl,
      show bytesFrom ")" = [0x29] from rfl,List.append_assoc,List.cons_append,List.nil_append,
      List.map_cons,List.map_nil,List.flatMap_cons,List.flatMap_nil,List.append_nil]
  · simp only [List.map_cons,List.map_nil,n₀,n₁,n₂,n₃,n₄,n₅,n₆,n₇,n₈,n₉,Option.isNone_map,
      Option.isNone_some,Bool.not_true]

theorem walk_nulls {h : ItemHeader} {d : ItemData} {w : Walk} (hw : walk h d = .ok w) :
    [false,false,w.text1.isNone,w.text2.isNone,w.text3.isNone,!h.hasAttribute 5,w.text4.isNone,
      w.text5.isNone,!h.hasAttribute 8,w.text6.isNone] = (List.range 10).map (!h.hasAttribute ·) ∧
      w.point.isNone = !h.hasAttribute 10 := by
  obtain ⟨h₀,h₁⟩ := walk_present hw
  simp only [walk,assertion,h₀,h₁,if_true,bind,Except.bind,pure,Except.pure,Except.ok.injEq] at hw
  subst hw
  simp only [takeField_isNone,List.range,List.range.loop,List.map_cons,List.map_nil,h₀,h₁,
    Bool.not_true,and_self]

/-- The text is a list of eleven values, of which the first ten are null where the null bitmap
says so. -/
def ElevenValues (h : ItemHeader) (row : List UInt8) : Prop :=
  ∃ vs : List SqlValue, vs.length = 11 ∧ lex row = some (tupleTokens (vs.map SqlValue.token)) ∧
    ∀ k < 10, vs[k]? = some .null ↔ h.hasAttribute k = false

theorem renderRow_ok {toastmap toastmap' : ToastMap} {c : UserCall} {row : List UInt8}
    (h : renderRow toastmap c = (.ok row,toastmap')) : ∃ w σ', walk c.itemheader c.itemdata = .ok w ∧
      (sqlRow c w).run.run (some toastmap) = (.ok row,σ') := by
  rw [renderRow] at h
  cases hw : walk c.itemheader c.itemdata with
  | error e =>
    rw [hw] at h
    cases h
  | ok w =>
    simp only [hw,Prod.mk.injEq] at h
    exact ⟨w,_,rfl,Prod.ext h.1 rfl⟩

theorem lex_row {toastmap toastmap' : ToastMap} {c : UserCall} {row : List UInt8}
    (h : renderRow toastmap c = (.ok row,toastmap')) :
    ∃ (vs : List SqlValue) (point : Option Varlena), vs.length = 10 ∧
      lex row = some (tupleTokens (vs.map SqlValue.token ++ [.word (sqlGeometric point)])) ∧
      (∀ k < 10, vs[k]? = some .null ↔ c.itemheader.hasAttribute k = false) ∧
      point.isNone = !c.itemheader.hasAttribute 10 := by
  obtain ⟨w,σ',hw,hrun⟩ := renderRow_ok h
  obtain ⟨v,vs,hrow,hnull⟩ := sqlRow_values hrun
  obtain ⟨hattr,hpoint⟩ := walk_nulls hw
  rw [hattr] at hnull
  have hlen : (v::vs).length = 10 := by
    have := congrArg List.length hnull
    rwa [List.length_map,List.length_map,List.length_range] at this
  refine ⟨v::vs,w.point.map c.itemdata.getVarlena,hlen,?_,fun k hk => ?_,?_⟩
  · have hreads : List.Forall₂ Reads
        (vs.map SqlValue.text ++ [sqlGeometric (w.point.map c.itemdata.getVarlena)])
        (vs.map SqlValue.token ++ [.word (sqlGeometric (w.point.map c.itemdata.getVarlena))]) := by
      refine List.rel_append ?_ (.cons (reads_sqlGeometric _) .nil)
      rw [List.forall₂_map_left_iff,List.forall₂_map_right_iff,List.forall₂_same]
      exact fun v _ => v.reads
    rw [hrow,lex_blank rfl,lex_tuple v.reads hreads]
    rfl
  · have hk' := congrArg (·[k]?) hnull
    simp only [List.getElem?_map,List.getElem?_range hk,Option.map_some] at hk'
    obtain ⟨x,hx,hxn⟩ := Option.map_eq_some_iff.mp hk'
    rw [hx,Option.some.injEq]
    simp only [SqlValue.isNull] at hxn
    cases hb : c.itemheader.hasAttribute k <;> simp_all
  · rw [Option.isNone_map,hpoint]

theorem not_elevenValues_of_null {toastmap toastmap' : ToastMap} {c : UserCall} {row : List UInt8}
    (h : renderRow toastmap c = (.ok row,toastmap')) (hn : c.itemheader.hasAttribute 10 = false) :
    ¬ ElevenValues c.itemheader row := by
  obtain ⟨vs,point,-,hlex,-,hpoint⟩ := lex_row h
  rw [hn,Bool.not_false,Option.isNone_iff_eq_none] at hpoint
  subst hpoint
  rintro ⟨vs',hlen,hlex',-⟩
  obtain ⟨front,v,rfl⟩ := List.eq_nil_or_concat vs' |>.resolve_left (by rintro rfl; cases hlen)
  rw [hlex,Option.some.injEq,List.concat_eq_append,List.map_append] at hlex'
  have hlast := tupleTokens_last hlex'
  cases v with
  | null =>
    revert hlast
    decide
  | integer i => cases hlast
  | string s => cases hlast

/-- A row that is rendered is read as eleven values, null where the bitmap says so, if and only if
its point is not null: without PostGIS a null point is printed as `NULLNULL`. -/
theorem renderRow_elevenValues_iff {toastmap toastmap' : ToastMap} {c : UserCall} {row : List UInt8}
    (h : renderRow toastmap c = (.ok row,toastmap')) :
    ElevenValues c.itemheader row ↔ c.itemheader.hasAttribute 10 = true := by
  constructor
  · intro hrow
    by_contra hn
    exact not_elevenValues_of_null h (by simpa using hn) hrow
  · intro hp
    obtain ⟨vs,point,hlen,hlex,hnull,hpoint⟩ := lex_row h
    rw [hp] at hpoint
    have hnn : Lexeme.word (sqlGeometric point) = SqlValue.null.token := by
      cases point with
      | none => cases hpoint
      | some v => rfl
    refine ⟨vs ++ [.null],by simp [hlen],?_,fun k hk => ?_⟩
    · rw [hlex,hnn,List.map_append]
      rfl
    · rw [List.getElem?_append_left (by omega)]
      exact hnull k hk

def fullCall : UserCall where
  itemheader := ⟨fun _ => 0⟩
  itemdata := ⟨⟨fun _ => 0⟩,fun i => ([7,0,0,0,5,0x27,5,0x62,5,0x63,5,0x64,1,0,0,0,5,0x65,5,0x66,
    2,0,0,0,5,0x67,5,0] : List UInt8).getD i 0,28⟩
  heap _ := ⟨fun _ => 0,fun _ => 0⟩

theorem renderRow_elevenValues_fullCall :
    ∃ row, renderRow ⟨fun _ => none,emptyToastFile⟩ fullCall = (.ok row,⟨fun _ => none,emptyToastFile⟩) ∧
      (ElevenValues fullCall.itemheader row ↔ fullCall.itemheader.hasAttribute 10 = true) := by
  obtain ⟨row,hrow⟩ : ∃ row, renderRow ⟨fun _ => none,emptyToastFile⟩ fullCall =
      (.ok row,⟨fun _ => none,emptyToastFile⟩) := ⟨_,rfl⟩
  exact ⟨row,hrow,renderRow_elevenValues_iff hrow⟩

def pointlessCall : UserCall := ⟨headerOf 2,shortTuple,fun _ => ⟨fun _ => 0,fun _ => 0⟩⟩

theorem not_elevenValues_pointlessCall :
    ∃ row, renderRow ⟨fun _ => none,emptyToastFile⟩ pointlessCall =
        (.ok row,⟨fun _ => none,emptyToastFile⟩) ∧ ¬ ElevenValues pointlessCall.itemheader row := by
  obtain ⟨row,hrow⟩ : ∃ row, renderRow ⟨fun _ => none,emptyToastFile⟩ pointlessCall =
      (.ok row,⟨fun _ => none,emptyToastFile⟩) := ⟨_,rfl⟩
  exact ⟨row,hrow,not_elevenValues_of_null hrow rfl⟩

end PageDumper
