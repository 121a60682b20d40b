import PageDumper.Lib.Grouping
import PageDumper.Lib.LZ77
import PageDumper.Lib.Words

/-! The compressed data format described at the head of `pg_lzcompress.c`: item sequences,
their encoding in groups of eight, and where each item lies in the encoded stream. -/
namespace PageDumper
open Memory Words Grouping LZ77

/-- What a tag of the format can say. -/
def Codable : Item UInt8 → Prop
  | .literal _ => True
  | .backref off len => (1 ≤ off ∧ off ≤ 4095) ∧ (3 ≤ len ∧ len ≤ 273)

instance : DecidablePred Codable
  | .literal _ => inferInstanceAs (Decidable True)
  | .backref _ _ => inferInstanceAs (Decidable ((_ ∧ _) ∧ (_ ∧ _)))

structure PglzStream where
  items : List (Item UInt8)
  codable : ∀ i ∈ items, Codable i
  valid : Valid items

/-- A literal byte, a two-byte tag up to length 17, or a three-byte tag. -/
def encodeItem : Item UInt8 → List UInt8
  | .literal b => [b]
  | .backref off len =>
    if len ≤ 17 then [UInt8.ofNat (16*(off/256)+(len-3)),UInt8.ofNat (off%256)]
    else [UInt8.ofNat (16*(off/256)+15),UInt8.ofNat (off%256),UInt8.ofNat (len-18)]

/-- The control bits of a group, the first item in the lowest bit. -/
def controlBits : List (Item UInt8) → ℕ
  | [] => 0
  | .literal _::g => 2*controlBits g
  | .backref _ _::g => 2*controlBits g+1

def encodeGroup (g : List (Item UInt8)) : List UInt8 :=
  UInt8.ofNat (controlBits g) :: g.flatMap encodeItem

def encode (is : List (Item UInt8)) : List UInt8 := (groupsOf 8 is).flatMap encodeGroup

def PglzStream.bytes (e : PglzStream) : List UInt8 := encode e.items
def PglzStream.expansion (e : PglzStream) : List UInt8 := expand e.items

theorem encode_cons (i : Item UInt8) (is : List (Item UInt8)) :
    encode (i::is) = encodeGroup (i::is.take 7) ++ encode (is.drop 7) := by
  simp [encode,groupsOf_cons]

theorem encode_append {is : List (Item UInt8)} (h : 8 ∣ is.length) (js : List (Item UInt8)) :
    encode (is ++ js) = encode is ++ encode js := by
  rw [encode,groupsOf_append (by omega) h,List.flatMap_append]
  rfl

theorem encode_group {g : List (Item UInt8)} (hne : g ≠ []) (h : g.length ≤ 8) :
    encode g = encodeGroup g := by
  obtain ⟨i,g,rfl⟩ := List.exists_cons_of_ne_nil hne
  rw [encode,groupsOf_of_length_le h,List.flatMap_singleton]

theorem controlBits_concat (g : List (Item UInt8)) (i : Item UInt8) :
    controlBits (g ++ [i]) = controlBits g+2^g.length*controlBits [i] := by
  induction g with
  | nil => simp [controlBits]
  | cons j g ih =>
    have hpow : 2^(g.length+1)*controlBits [i] = 2*(2^g.length*controlBits [i]) := by
      rw [pow_succ',Nat.mul_assoc]
    cases j <;> simp only [List.cons_append,controlBits,ih,List.length_cons,hpow] <;> omega

theorem one_le_length_encodeItem (i : Item UInt8) : 1 ≤ (encodeItem i).length := by
  cases i with
  | literal b => simp [encodeItem]
  | backref off len => simp only [encodeItem]; split <;> simp

theorem length_encodeItem_le (i : Item UInt8) : (encodeItem i).length ≤ 3 := by
  cases i with
  | literal b => simp [encodeItem]
  | backref off len => simp only [encodeItem]; split <;> simp

theorem controlBits_lt (g : List (Item UInt8)) : controlBits g < 2^g.length := by
  induction g with
  | nil => simp [controlBits]
  | cons i g ih => cases i <;> simp only [controlBits,List.length_cons,pow_succ] <;> omega

theorem toNat_controlBits {g : List (Item UInt8)} (h : g.length ≤ 8) :
    (UInt8.ofNat (controlBits g)).toNat = controlBits g := by
  have hlt := controlBits_lt g
  have hpow : 2^g.length ≤ 2^8 := Nat.pow_le_pow_right (by omega) h
  rw [UInt8.toNat_ofNat']
  omega

theorem Codable.one_le_size {i : Item UInt8} (h : Codable i) : 1 ≤ i.size := by
  cases i with
  | literal b => exact le_rfl
  | backref off len => exact Nat.le_trans (by omega) h.2.1

theorem length_encode (is : List (Item UInt8)) :
    (encode is).length = (is.flatMap encodeItem).length+(is.length+7)/8 := by
  induction is using groupsOf_induction 8 with
  | nil => simp [encode]
  | group i is ih =>
    simp only [Nat.reduceSub] at ih
    have hsplit : i::is = (i::is.take 7) ++ is.drop 7 := by simp
    have hitems : ((i::is).flatMap encodeItem).length =
        ((i::is.take 7).flatMap encodeItem).length+((is.drop 7).flatMap encodeItem).length := by
      rw [hsplit,List.flatMap_append,List.length_append]
    rw [encode_cons,List.length_append,ih,hitems,encodeGroup,List.length_cons,List.length_drop,
      List.length_cons]
    omega

/-- Offset in the stream of the item behind `is`: all control bytes up to the one of its own
group come before it. -/
def itemStart (is : List (Item UInt8)) : ℕ := (is.flatMap encodeItem).length+is.length/8+1

theorem length_encode_le_itemStart (is : List (Item UInt8)) : (encode is).length ≤ itemStart is := by
  rw [length_encode,itemStart]
  omega

theorem itemStart_le_append (is js : List (Item UInt8)) : itemStart is ≤ itemStart (is ++ js) := by
  rw [itemStart,itemStart,List.flatMap_append,List.length_append,List.length_append]
  omega

theorem itemStart_lt_length_encode (is : List (Item UInt8)) {js : List (Item UInt8)} (h : js ≠ []) :
    itemStart is < (encode (is ++ js)).length := by
  obtain ⟨j,js,rfl⟩ := List.exists_cons_of_ne_nil h
  have hj := one_le_length_encodeItem j
  rw [length_encode,itemStart,List.flatMap_append,List.flatMap_cons]
  simp only [List.length_append,List.length_cons]
  omega

theorem Codable.length_encodeItem_le {i : Item UInt8} (h : Codable i) : (encodeItem i).length ≤ i.size := by
  cases i with
  | literal b => exact le_rfl
  | backref off len =>
    obtain ⟨-,h₃,-⟩ := h
    simp only [encodeItem,Item.size]
    split <;> simp only [List.length_cons,List.length_nil] <;> omega

/-- The items are never longer than the text; a stream grows by its control bytes only. -/
theorem PglzStream.length_bytes_le (e : PglzStream) :
    e.bytes.length ≤ e.expansion.length+(e.expansion.length+7)/8 := by
  have h : ∀ is : List (Item UInt8), (∀ i ∈ is, Codable i) →
      (is.flatMap encodeItem).length ≤ (is.map Item.size).sum ∧ is.length ≤ (is.map Item.size).sum := by
    intro is hc
    induction is with
    | nil => simp
    | cons i is ih =>
      obtain ⟨hitems,hlen⟩ := ih fun j hj => hc j (by simp [hj])
      have hi := hc i (by simp)
      have hle := hi.length_encodeItem_le
      have hone := hi.one_le_size
      simp only [List.flatMap_cons,List.length_append,List.map_cons,List.sum_cons,List.length_cons]
      omega
  obtain ⟨hitems,hlen⟩ := h e.items e.codable
  rw [PglzStream.bytes,PglzStream.expansion,length_expand,length_encode]
  omega

theorem lt_length_expand {pre post : List (Item UInt8)} (h : ∀ i ∈ post, Codable i) :
    (expand pre).length < (expand (pre ++ post)).length ↔ post ≠ [] := by
  rw [length_expand,length_expand,List.map_append,List.sum_append]
  cases post with
  | nil => simp
  | cons i post =>
    have hi := (h i (by simp)).one_le_size
    simp only [List.map_cons,List.sum_cons,ne_eq,reduceCtorEq,not_false_eq_true,iff_true]
    omega

theorem and_0f (n : ℕ) : n &&& 0x0f = n%16 := Nat.and_two_pow_sub_one_eq_mod n 4

theorem tag_offset {h l t : ℕ} (hh : h < 16) (hl : l < 16) (ht : t < 256) :
    (((16*h+l) &&& 0xf0) <<< 4) ||| t = 256*h+t := by
  have hhigh : (16*h+l) &&& 0xf0 = 16*h := by
    have hd : ∀ h < 16, ∀ l < 16, (16*h+l) &&& 0xf0 = 16*h := by decide
    exact hd h hh l hl
  have hs : (16*h) <<< 4 = h <<< 8 := by
    simp only [Nat.shiftLeft_eq]
    omega
  rw [hhigh,hs,← Nat.shiftLeft_add_eq_or_of_lt (i := 8) (by omega)]
  simp only [Nat.shiftLeft_eq]
  omega

end PageDumper
