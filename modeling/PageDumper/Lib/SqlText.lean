import Mathlib.Data.Nat.Digits.Defs
import Mathlib.Tactic.Common

/-! The part of PostgreSQL's lexical rules that the values of a row need: parentheses,
commas, words, integers with an optional sign, and string literals `E'...'`. A text is a
list of bytes. Words and digits are maximal, and blanks separate tokens. -/
namespace SqlText

/-! ### String literals -/

def push (b : UInt8) (r : Option (List UInt8 × List UInt8)) : Option (List UInt8 × List UInt8) :=
  r.map fun p => (b::p.1,p.2)

/-- The contents of a literal, read from behind the opening `E'`, and the text behind its closing
quote. Two backslashes stand for one and two quotes for one; a backslash before any other byte
is an escape, of which none is read here. -/
def readString : List UInt8 → Option (List UInt8 × List UInt8)
  | [] => none
  | [b] => if b = 0x27 then some ([],[]) else none
  | b::c::rest =>
    if b = 0x5c then (if c = 0x5c then push b (readString rest) else none)
    else if b = 0x27 then (if c = 0x27 then push b (readString rest) else some ([],c::rest))
    else push b (readString (c::rest))

def readLiteral : List UInt8 → Option (List UInt8 × List UInt8)
  | b::c::text => if b = 0x45 ∧ c = 0x27 then readString text else none
  | _ => none

theorem readString_backslash (rest : List UInt8) :
    readString (0x5c::0x5c::rest) = push 0x5c (readString rest) := by
  simp [readString]

theorem readString_quote (rest : List UInt8) :
    readString (0x27::0x27::rest) = push 0x27 (readString rest) := by
  simp [readString]

theorem readString_plain {b : UInt8} (h₁ : b ≠ 0x5c) (h₂ : b ≠ 0x27) (rest : List UInt8) :
    readString (b::rest) = push b (readString rest) := by
  cases rest with
  | nil => simp [readString,push,h₂]
  | cons c rest => simp [readString,h₁,h₂]

theorem readString_close {rest : List UInt8} (h : rest.head? ≠ some 0x27) :
    readString (0x27::rest) = some ([],rest) := by
  cases rest with
  | nil => simp [readString]
  | cons c rest =>
    have hc : c ≠ 0x27 := by simpa using h
    simp [readString,hc]

theorem snd_of_push {b : UInt8} {r : Option (List UInt8 × List UInt8)} {p : List UInt8 × List UInt8}
    (h : push b r = some p) : ∃ q, r = some q ∧ p.2 = q.2 := by
  obtain ⟨q,hq,rfl⟩ := Option.map_eq_some_iff.mp h
  exact ⟨q,hq,rfl⟩

theorem readString_length {text : List UInt8} {p : List UInt8 × List UInt8}
    (h : readString text = some p) : p.2.length < text.length := by
  fun_induction readString text generalizing p with
  | case1 | case3 | case5 => cases h
  | case2 | case7 =>
    cases h
    simp
  | case4 rest ih | case6 rest _ ih | case8 b c rest _ _ ih =>
    obtain ⟨q,hq,hp⟩ := snd_of_push h
    have hlt := ih hq
    rw [hp]
    simp only [List.length_cons] at hlt ⊢
    omega

/-! ### Tokens -/

inductive Lexeme
  | lparen | rparen | comma
  | word (w : List UInt8) | integer (digits : List UInt8) | string (s : List UInt8)
  deriving DecidableEq

def isBlank (b : UInt8) : Bool := b = 0x20 || (0x09 ≤ b && b ≤ 0x0d)

def isDigit (b : UInt8) : Bool := 0x30 ≤ b && b ≤ 0x39

def isWordStart (b : UInt8) : Bool :=
  (0x41 ≤ b && b ≤ 0x5a) || (0x61 ≤ b && b ≤ 0x7a) || b = 0x5f || 0x80 ≤ b

def isWordPart (b : UInt8) : Bool := isWordStart b || isDigit b || b = 0x24

theorem isBlank_of_isWordStart {b : UInt8} (h : isWordStart b = true) : isBlank b = false := by
  simp only [isWordStart,isBlank,Bool.or_eq_true,Bool.and_eq_true,decide_eq_true_eq,
    Bool.or_eq_false_iff,Bool.and_eq_false_iff,decide_eq_false_iff_not,UInt8.le_iff_toNat_le,
    ← UInt8.toNat_inj,UInt8.reduceToNat] at h ⊢
  omega

theorem isBlank_of_isDigit {b : UInt8} (h : isDigit b = true) : isBlank b = false := by
  simp only [isDigit,isBlank,Bool.and_eq_true,decide_eq_true_eq,Bool.or_eq_false_iff,
    Bool.and_eq_false_iff,decide_eq_false_iff_not,UInt8.le_iff_toNat_le,← UInt8.toNat_inj,
    UInt8.reduceToNat] at h ⊢
  omega

theorem isWordStart_of_isDigit {b : UInt8} (h : isDigit b = true) : isWordStart b = false := by
  simp only [isDigit,isWordStart,Bool.and_eq_true,decide_eq_true_eq,Bool.or_eq_false_iff,
    Bool.and_eq_false_iff,decide_eq_false_iff_not,UInt8.le_iff_toNat_le,← UInt8.toNat_inj,
    UInt8.reduceToNat] at h ⊢
  omega

def tokenAt (b : UInt8) (rest : List UInt8) : Option (Lexeme × List UInt8) :=
  if b = 0x28 then some (.lparen,rest)
  else if b = 0x29 then some (.rparen,rest)
  else if b = 0x2c then some (.comma,rest)
  else if b = 0x45 ∧ rest.head? = some 0x27 then
    (readString rest.tail).map fun p => (.string p.1,p.2)
  else if isWordStart b then some (.word (b::rest.takeWhile isWordPart),rest.dropWhile isWordPart)
  else if isDigit b ∨ (b = 0x2d ∧ rest.takeWhile isDigit ≠ []) then
    some (.integer (b::rest.takeWhile isDigit),rest.dropWhile isDigit)
  else none

def nextToken (text : List UInt8) : Option (Lexeme × List UInt8) :=
  match text.dropWhile isBlank with
  | [] => none
  | b::rest => tokenAt b rest

theorem tokenAt_length {b : UInt8} {rest : List UInt8} {t : Lexeme} {rest' : List UInt8}
    (h : tokenAt b rest = some (t,rest')) : rest'.length ≤ rest.length := by
  have hw := (List.dropWhile_sublist isWordPart (l := rest)).length_le
  have hd := (List.dropWhile_sublist isDigit (l := rest)).length_le
  unfold tokenAt at h
  split_ifs at h
  any_goals
    cases h
    first | exact le_rfl | exact hw | exact hd
  obtain ⟨p,hp,he⟩ := Option.map_eq_some_iff.mp h
  cases he
  have := readString_length hp
  simp only [List.length_tail] at this
  omega

theorem nextToken_length {text rest : List UInt8} {t : Lexeme} (h : nextToken text = some (t,rest)) :
    rest.length < text.length := by
  have hb := (List.dropWhile_sublist isBlank (l := text)).length_le
  unfold nextToken at h
  split at h
  · cases h
  · rename_i b rest' heq
    have := tokenAt_length h
    rw [heq,List.length_cons] at hb
    omega

/-- All tokens of a text, if it consists of tokens and blanks. -/
def lex (text : List UInt8) : Option (List Lexeme) :=
  match _h : nextToken text with
  | some (t,rest) => (lex rest).map (t::·)
  | none => if text.all isBlank then some [] else none
termination_by text.length
decreasing_by exact nextToken_length _h

theorem lex_of_next {text rest : List UInt8} {t : Lexeme} (h : nextToken text = some (t,rest)) :
    lex text = (lex rest).map (t::·) := by
  rw [lex]
  split
  · rename_i t' rest' h'
    rw [h] at h'
    cases h'
    rfl
  · rename_i h'
    rw [h] at h'
    cases h'

theorem lex_of_none {text : List UInt8} (h : nextToken text = none) :
    lex text = if text.all isBlank then some [] else none := by
  rw [lex]
  split
  · rename_i h'
    rw [h] at h'
    cases h'
  · rfl

theorem lex_nil : lex [] = some [] := lex_of_none rfl

/-- Nothing that follows the text, be it a comma or a closing parenthesis, is part of the token. -/
def Delimited (rest : List UInt8) : Prop := rest.head? = some 0x2c ∨ rest.head? = some 0x29

/-- The text is read as the one token `t` in front of every delimiter. -/
def Reads (text : List UInt8) (t : Lexeme) : Prop :=
  ∀ rest, Delimited rest → nextToken (text ++ rest) = some (t,rest)

theorem nextToken_of_blank {b : UInt8} (h : isBlank b = true) (text : List UInt8) :
    nextToken (b::text) = nextToken text := by
  simp [nextToken,h]

theorem nextToken_cons {b : UInt8} (h : isBlank b = false) (text : List UInt8) :
    nextToken (b::text) = tokenAt b text := by
  simp [nextToken,h]

theorem Reads.blank {text : List UInt8} {t : Lexeme} (h : Reads text t) : Reads (0x20::text) t :=
  fun rest hrest => (nextToken_of_blank rfl _).trans (h rest hrest)

theorem takeWhile_delimited {p : UInt8 → Bool} (h₁ : p 0x2c = false) (h₂ : p 0x29 = false)
    {text rest : List UInt8} (ht : ∀ b ∈ text, p b = true) (hrest : Delimited rest) :
    (text ++ rest).takeWhile p = text ∧ (text ++ rest).dropWhile p = rest := by
  cases rest with
  | nil => simp [Delimited] at hrest
  | cons b rest =>
    have hb : p b = false := by
      rcases hrest with hb | hb <;> cases hb <;> assumption
    rw [List.takeWhile_append_of_pos ht,List.dropWhile_append_of_pos ht]
    simp [hb]

/-- A letter or underscore and the word bytes after it are one word, unless a literal opens. -/
theorem reads_word {b : UInt8} {text : List UInt8} (hb : isWordStart b = true) (he : b ≠ 0x45)
    (ht : ∀ c ∈ text, isWordPart c = true) : Reads (b::text) (.word (b::text)) := by
  intro rest hrest
  obtain ⟨h₁,h₂⟩ := takeWhile_delimited (p := isWordPart) rfl rfl ht hrest
  have h₃ : b ≠ 0x28 := by rintro rfl; cases hb
  have h₄ : b ≠ 0x29 := by rintro rfl; cases hb
  have h₅ : b ≠ 0x2c := by rintro rfl; cases hb
  rw [List.cons_append,nextToken_cons (isBlank_of_isWordStart hb),tokenAt,if_neg h₃,if_neg h₄,if_neg h₅,
    if_neg (fun h => he h.1),if_pos hb,h₁,h₂]

theorem reads_integer {b : UInt8} {digits : List UInt8}
    (hb : isDigit b = true ∨ (b = 0x2d ∧ digits ≠ [])) (hd : ∀ c ∈ digits, isDigit c = true) :
    Reads (b::digits) (.integer (b::digits)) := by
  intro rest hrest
  obtain ⟨h₁,h₂⟩ := takeWhile_delimited (p := isDigit) rfl rfl hd hrest
  have hne : ∀ c : UInt8, isDigit c = false → c ≠ 0x2d → b ≠ c := by
    rintro c hc hs rfl
    rcases hb with hb | hb
    · rw [hc] at hb
      cases hb
    · exact hs hb.1
  have hblank : isBlank b = false := by
    rcases hb with hb | ⟨rfl,-⟩
    · exact isBlank_of_isDigit hb
    · rfl
  have hword : isWordStart b = false := by
    rcases hb with hb | ⟨rfl,-⟩
    · exact isWordStart_of_isDigit hb
    · rfl
  rw [List.cons_append,nextToken_cons hblank,tokenAt,if_neg (hne _ rfl (by decide)),
    if_neg (hne _ rfl (by decide)),if_neg (hne _ rfl (by decide)),
    if_neg (fun h => hne 0x45 rfl (by decide) h.1),hword,if_neg (by decide),h₁,h₂,if_pos hb]

theorem reads_literal {text s : List UInt8}
    (h : ∀ rest, rest.head? ≠ some 0x27 → readString (text ++ rest) = some (s,rest)) :
    Reads (0x45::0x27::text) (.string s) := by
  intro rest hrest
  have hne : rest.head? ≠ some 0x27 := by
    rcases hrest with hr | hr <;> rw [hr] <;> decide
  rw [List.cons_append,nextToken_cons rfl,tokenAt,if_neg (by decide),if_neg (by decide),
    if_neg (by decide),if_pos ⟨rfl,rfl⟩,List.cons_append,List.tail_cons,h rest hne]
  rfl

theorem delimited_listed (texts : List (List UInt8)) :
    Delimited ((texts.flatMap fun text => 0x2c::0x20::text) ++ [0x29]) := by
  cases texts with
  | nil => exact .inr rfl
  | cons text texts => exact .inl rfl

/-- Texts that are each read as one token, each behind a comma and a blank, up to the closing
parenthesis. -/
theorem lex_listed {texts : List (List UInt8)} {tokens : List Lexeme}
    (h : List.Forall₂ Reads texts tokens) :
    lex ((texts.flatMap fun text => 0x2c::0x20::text) ++ [0x29]) =
      some ((tokens.flatMap fun t => [.comma,t]) ++ [.rparen]) := by
  induction h with
  | nil =>
    have hclose : nextToken [0x29] = some (.rparen,[]) := rfl
    rw [List.flatMap_nil,List.nil_append,lex_of_next hclose,lex_nil]
    rfl
  | @cons text t texts tokens ht hrest ih =>
    have hcomma : ∀ text, nextToken (0x2c::text) = some (.comma,text) := fun _ => rfl
    rw [List.flatMap_cons,List.append_assoc,List.cons_append,lex_of_next (hcomma _),
      lex_of_next (ht.blank _ (delimited_listed texts)),ih]
    rfl

def tupleTokens : List Lexeme → List Lexeme
  | [] => [.lparen,.rparen]
  | t::ts => .lparen::t::(ts.flatMap fun t => [.comma,t]) ++ [.rparen]

theorem lex_tuple {text : List UInt8} {t : Lexeme} {texts : List (List UInt8)} {tokens : List Lexeme}
    (ht : Reads text t) (h : List.Forall₂ Reads texts tokens) :
    lex (0x28::(text ++ ((texts.flatMap fun text => 0x2c::0x20::text) ++ [0x29]))) =
      some (tupleTokens (t::tokens)) := by
  have hopen : ∀ text, nextToken (0x28::text) = some (.lparen,text) := fun _ => rfl
  rw [lex_of_next (hopen _),lex_of_next (ht _ (delimited_listed texts)),lex_listed h]
  rfl

theorem lex_blank {b : UInt8} (hb : isBlank b = true) (text : List UInt8) : lex (b::text) = lex text := by
  cases h : nextToken text with
  | some p =>
    obtain ⟨t,rest⟩ := p
    rw [lex_of_next h,lex_of_next ((nextToken_of_blank hb text).trans h)]
  | none =>
    rw [lex_of_none h,lex_of_none ((nextToken_of_blank hb text).trans h),List.all_cons,hb,Bool.true_and]

theorem tupleTokens_concat (ts : List Lexeme) (t : Lexeme) :
    ∃ front, tupleTokens (ts ++ [t]) = front ++ [t,.rparen] := by
  cases ts with
  | nil => exact ⟨[.lparen],rfl⟩
  | cons t₀ ts => exact ⟨.lparen::t₀::(ts.flatMap fun t => [.comma,t]) ++ [.comma],by simp [tupleTokens]⟩

theorem tupleTokens_last {ts ts' : List Lexeme} {t t' : Lexeme}
    (h : tupleTokens (ts ++ [t]) = tupleTokens (ts' ++ [t'])) : t = t' := by
  obtain ⟨front,hf⟩ := tupleTokens_concat ts t
  obtain ⟨front',hf'⟩ := tupleTokens_concat ts' t'
  rw [hf,hf'] at h
  have hlast := (List.append_inj' h rfl).2
  cases hlast
  rfl

end SqlText
