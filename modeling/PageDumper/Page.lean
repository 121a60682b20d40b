import PageDumper.Lib.Words

/-! Pages, their line pointers and the loop over them shared by `main` and
`fill_toast_map`. A page is the memory from its first byte on; only the first
`PAGE_SIZE` cells belong to the page buffer. -/
namespace PageDumper
open Words

/-- The exceptions of the standard library that the program throws, with their message. -/
inductive Exception
  | runtimeError (what : String) | logicError (what : String) | lengthError (what : String)
  deriving DecidableEq

/-- How a computation ends other than by returning. `throwInt` is a `throw` of an exit code;
`abort` is a failed `assert` or a call of `abort()`; `outOfRange` is a store behind the
elements of a vector; `killed` is an access to an address without memory. -/
inductive Stop
  | throw (e : Exception) | throwInt (retcode : ℤ) | abort | outOfRange | killed
  deriving DecidableEq

def assertion (cond : Prop) [Decidable cond] : Except Stop Unit :=
  if cond then .ok () else .error .abort

def PAGE_SIZE : ℕ := 8*1024

/-- `sizeof(PageHeaderData)`, which counts the first element of `pd_linp`. -/
def sizeofPageHeaderData : ℕ := 28

def sizeofItemIdData : ℕ := 4

def sizeOfPageHeaderData : ℕ := 24

/-- A line pointer; the bit fields are allocated from the low end of the word. -/
structure ItemIdData where
  word : UInt32

def ItemIdData.lpOff (i : ItemIdData) : ℕ := i.word.toNat % 2^15
def ItemIdData.lpFlags (i : ItemIdData) : ℕ := i.word.toNat/2^15 % 2^2
def ItemIdData.lpLen (i : ItemIdData) : ℕ := i.word.toNat/2^17

def LP_NORMAL : ℕ := 1

def pdLower (page : ℕ → UInt8) : UInt16 := le16 page 12

def linpOffset (i : ℕ) : ℕ := sizeOfPageHeaderData+sizeofItemIdData*i

def pdLinp (page : ℕ → UInt8) (i : ℕ) : ItemIdData := ⟨le32 page (linpOffset i)⟩

def ItemIdData.admitted (i : ItemIdData) : Bool :=
  if i.lpFlags ≠ LP_NORMAL then false
  else if i.lpLen = 0 then false
  else if i.lpOff > PAGE_SIZE then false
  else if i.lpOff+i.lpLen > PAGE_SIZE then false
  else true

theorem ItemIdData.admitted_iff (i : ItemIdData) :
    i.admitted = true ↔ i.lpFlags = LP_NORMAL ∧ i.lpLen ≠ 0 ∧ i.lpOff+i.lpLen ≤ PAGE_SIZE := by
  simp only [admitted]
  split_ifs <;> simp_all
  omega

def integralDivision (dividend divisor : UInt32) : Except Stop UInt32 := do
  let result := dividend/divisor
  assertion (dividend-divisor*result = 0)
  return result

/-- The subtraction is done in `size_t`; the result is converted to `unsigned`. -/
def itemidCount (page : ℕ → UInt8) : Except Stop UInt32 :=
  integralDivision
    ((pdLower page).toUInt64-UInt64.ofNat sizeofPageHeaderData+UInt64.ofNat sizeofItemIdData).toUInt32
    (UInt32.ofNat sizeofItemIdData)

/-- `for (i = 0; i < page.itemid_count(); ++i)`; the body reads `page.pd_linp[i]`. -/
def forLinp {σ : Type} (page : ℕ → UInt8) (body : σ → ℕ → Except Stop σ) (a : σ) : Except Stop σ := do
  let n ← itemidCount page
  (List.range n.toNat).foldlM body a

def pageGetMaxOffsetNumber (page : ℕ → UInt8) : ℕ :=
  if (pdLower page).toNat ≤ sizeOfPageHeaderData then 0
  else ((pdLower page).toNat-sizeOfPageHeaderData)/sizeofItemIdData

/-- The line pointer array ends where free space begins, inside the page. -/
def LowerSane (page : ℕ → UInt8) : Prop :=
  sizeOfPageHeaderData ≤ (pdLower page).toNat ∧ (pdLower page).toNat ≤ PAGE_SIZE ∧
    sizeofItemIdData ∣ (pdLower page).toNat

instance (page : ℕ → UInt8) : Decidable (LowerSane page) :=
  inferInstanceAs (Decidable (_ ∧ _ ∧ _))

theorem integralDivision_eq (dividend : UInt32) :
    integralDivision dividend 4 = if 4 ∣ dividend.toNat then .ok (dividend/4) else .error .abort := by
  have hz : dividend-4*(dividend/4) = 0 ↔ 4 ∣ dividend.toNat := by
    have h := dividend.toNat_lt
    have h₄ : (4 : UInt32).toNat = 4 := rfl
    have hq : (4*(dividend/4)).toNat = 4*(dividend.toNat/4) := by
      rw [UInt32.toNat_mul,UInt32.toNat_div,h₄]
      omega
    rw [← UInt32.toNat_inj,UInt32.toNat_sub_of_le _ _ (by rw [UInt32.le_iff_toNat_le,hq]; omega),hq,
      UInt32.toNat_zero]
    omega
  simp only [integralDivision,assertion,hz]
  split <;> rfl

theorem itemid_dividend (p : UInt16) :
    (p.toUInt64-UInt64.ofNat sizeofPageHeaderData+UInt64.ofNat sizeofItemIdData).toUInt32.toNat =
      (p.toNat+2^32-24) % 2^32 := by
  have h := p.toNat_lt
  have h₁ : (UInt64.ofNat sizeofPageHeaderData).toNat = 28 := rfl
  have h₂ : (UInt64.ofNat sizeofItemIdData).toNat = 4 := rfl
  simp only [UInt64.toNat_toUInt32,UInt64.toNat_add,UInt64.toNat_sub,UInt16.toNat_toUInt64,h₁,h₂]
  omega

theorem itemidCount_eq (page : ℕ → UInt8) :
    itemidCount page =
      if 4 ∣ (pdLower page).toNat then
        .ok (UInt32.ofNat (((pdLower page).toNat+2^32-24) % 2^32/4))
      else .error .abort := by
  have h₄ : UInt32.ofNat sizeofItemIdData = 4 := rfl
  have hd := itemid_dividend (pdLower page)
  rw [itemidCount,h₄,integralDivision_eq,hd]
  have hdvd : 4 ∣ ((pdLower page).toNat+2^32-24) % 2^32 ↔ 4 ∣ (pdLower page).toNat := by omega
  simp only [hdvd]
  split
  · congr 1
    apply UInt32.toNat_inj.mp
    have h₄' : (4 : UInt32).toNat = 4 := rfl
    rw [UInt32.toNat_div,hd,h₄',UInt32.toNat_ofNat']
    omega
  · rfl

theorem pageGetMaxOffsetNumber_eq (page : ℕ → UInt8) :
    pageGetMaxOffsetNumber page = ((pdLower page).toNat-24)/4 := by
  rw [pageGetMaxOffsetNumber]
  split
  · rename_i h
    simp only [sizeOfPageHeaderData] at h
    omega
  · rfl

theorem toNat_pageGetMaxOffsetNumber (page : ℕ → UInt8) :
    (UInt32.ofNat (pageGetMaxOffsetNumber page)).toNat = pageGetMaxOffsetNumber page := by
  have hp := (pdLower page).toNat_lt
  rw [UInt32.toNat_ofNat',pageGetMaxOffsetNumber_eq]
  omega

theorem itemidCount_of_sane {page : ℕ → UInt8} (h : LowerSane page) :
    itemidCount page = .ok (UInt32.ofNat (pageGetMaxOffsetNumber page)) := by
  obtain ⟨h₁,h₂,h₃⟩ := h
  simp only [sizeOfPageHeaderData,sizeofItemIdData] at h₁ h₃
  have hp := (pdLower page).toNat_lt
  have hmod : ((pdLower page).toNat+2^32-24) % 2^32 = (pdLower page).toNat-24 := by omega
  rw [itemidCount_eq,if_pos h₃,pageGetMaxOffsetNumber_eq,hmod]

theorem forLinp_of_sane {σ : Type} {page : ℕ → UInt8} (h : LowerSane page)
    (body : σ → ℕ → Except Stop σ) (a : σ) :
    forLinp page body a = (List.range (pageGetMaxOffsetNumber page)).foldlM body a := by
  rw [forLinp,itemidCount_of_sane h]
  simp only [bind,Except.bind,toNat_pageGetMaxOffsetNumber]

/-- An invariant that every body of the shared loop establishes for the next index holds
when all line pointers have been visited. -/
theorem forLinp_invariant {σ : Type} {page : ℕ → UInt8} (h : LowerSane page)
    {body : σ → ℕ → Except Stop σ} {I : ℕ → σ → Prop} {a : σ} (h₀ : I 0 a)
    (hstep : ∀ i < pageGetMaxOffsetNumber page, ∀ s, I i s → ∃ s', body s i = .ok s' ∧ I (i+1) s') :
    ∃ s, forLinp page body a = .ok s ∧ I (pageGetMaxOffsetNumber page) s := by
  have hfold : ∀ n ≤ pageGetMaxOffsetNumber page,
      ∃ s, (List.range n).foldlM body a = .ok s ∧ I n s := by
    intro n hn
    induction n with
    | zero => exact ⟨a,rfl,h₀⟩
    | succ n ih =>
      obtain ⟨s,hs,hI⟩ := ih (by omega)
      obtain ⟨s',hs',hI'⟩ := hstep n (by omega) s hI
      refine ⟨s',?_,hI'⟩
      rw [List.range_succ,List.foldlM_append,hs]
      simp [bind,Except.bind,pure,Except.pure,hs']
  rw [forLinp_of_sane h]
  exact hfold _ le_rfl

theorem forLinp_preserves {σ : Type} {page : ℕ → UInt8} {body : σ → ℕ → Except Stop σ} {I : σ → Prop}
    (hstep : ∀ i s s', I s → body s i = .ok s' → I s') {a s : σ} (ha : I a)
    (hok : forLinp page body a = .ok s) : I s := by
  have hfold : ∀ (is : List ℕ) (a : σ), I a → is.foldlM body a = .ok s → I s := by
    intro is
    induction is with
    | nil =>
      intro a ha hok
      cases hok
      exact ha
    | cons i is ih =>
      intro a ha hok
      rw [List.foldlM_cons] at hok
      cases hb : body a i with
      | error e =>
        rw [hb] at hok
        cases hok
      | ok a' =>
        rw [hb] at hok
        exact ih a' (hstep i a a' ha hb) hok
  rw [forLinp] at hok
  cases hn : itemidCount page with
  | error e =>
    rw [hn] at hok
    cases hok
  | ok n =>
    rw [hn] at hok
    exact hfold _ a ha hok

def linpReads (page : ℕ → UInt8) : Except Stop (List ℕ) :=
  forLinp page (fun is i => .ok (is ++ [i])) []

theorem foldlM_snoc (is js : List ℕ) :
    js.foldlM (fun is i => (.ok (is ++ [i]) : Except Stop (List ℕ))) is = .ok (is ++ js) := by
  induction js generalizing is with
  | nil => simp [pure,Except.pure]
  | cons j js ih => simp [List.foldlM_cons,bind,Except.bind,ih]

theorem linpReads_eq (page : ℕ → UInt8) :
    linpReads page = (itemidCount page).map fun n => List.range n.toNat := by
  cases h : itemidCount page with
  | error e => simp [linpReads,forLinp,h,bind,Except.bind,Except.map]
  | ok n => simp [linpReads,forLinp,h,bind,Except.bind,Except.map,foldlM_snoc]

/-- The loop reads as many line pointers as the page has, and each lies in the page. -/
def LinpFaithful (page : ℕ → UInt8) : Prop :=
  ∃ is, linpReads page = .ok is ∧ is.length = pageGetMaxOffsetNumber page ∧
    ∀ i ∈ is, linpOffset i+sizeofItemIdData ≤ PAGE_SIZE

theorem linpFaithful_iff_count (page : ℕ → UInt8) :
    LinpFaithful page ↔ ∃ n, itemidCount page = .ok n ∧ n.toNat = pageGetMaxOffsetNumber page ∧
      ∀ i < n.toNat, linpOffset i+sizeofItemIdData ≤ PAGE_SIZE := by
  rw [LinpFaithful,linpReads_eq]
  cases itemidCount page with
  | error e => simp [Except.map]
  | ok n => simp [Except.map]

/-- The loops of `main` and `fill_toast_map` go through exactly the line pointers of a page,
with no assertion failure and no read outside the page, if and only if `pd_lower` is a
multiple of four between the end of the header and the end of the page. -/
theorem linpFaithful_iff_sane (page : ℕ → UInt8) : LinpFaithful page ↔ LowerSane page := by
  rw [linpFaithful_iff_count]
  constructor
  · rintro ⟨n,hn,hcount,hin⟩
    have hp := (pdLower page).toNat_lt
    rw [itemidCount_eq] at hn
    split at hn
    · rename_i hdvd
      have hnn : n.toNat = ((pdLower page).toNat+2^32-24) % 2^32/4 := by
        cases hn
        rw [UInt32.toNat_ofNat']
        omega
      rw [pageGetMaxOffsetNumber_eq] at hcount
      have hlow : 24 ≤ (pdLower page).toNat := by omega
      refine ⟨hlow,?_,hdvd⟩
      rcases Nat.lt_or_ge 24 (pdLower page).toNat with hgt | hle
      · have hlast := hin (n.toNat-1) (by omega)
        simp only [linpOffset,sizeOfPageHeaderData,sizeofItemIdData] at hlast
        omega
      · simp only [PAGE_SIZE]
        omega
    · cases hn
  · intro h
    refine ⟨_,itemidCount_of_sane h,toNat_pageGetMaxOffsetNumber page,fun i hi => ?_⟩
    obtain ⟨h₁,h₂,h₃⟩ := h
    rw [toNat_pageGetMaxOffsetNumber,pageGetMaxOffsetNumber_eq] at hi
    simp only [linpOffset,sizeOfPageHeaderData,sizeofItemIdData]
    omega

/-- The page of a file that was extended but never initialised. -/
theorem not_linpFaithful_zero : ¬ LinpFaithful (fun _ => 0) := by
  rw [linpFaithful_iff_count]
  rintro ⟨n,hn,hcount,-⟩
  have hz : itemidCount (fun _ => 0) = .ok 1073741818 := by decide
  rw [hz] at hn
  cases hn
  revert hcount
  decide

end PageDumper
