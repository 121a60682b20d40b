import PageDumper.ChunkRecord

/-! The three loops over the pages of a file: the calls of `PageIterator::next`, the loop of
`fill_toast_map` and that of `main`. As long as the file is below 4 GiB all of them take the
pages of the file in order, and every recorded range starts at its true offset. -/
namespace PageDumper
open Memory Words Reader

/-- The page buffer when page `k` of the file has been read into it. -/
def pageBuffer (f : File UInt8) (buffer : ℕ → UInt8) (k : ℕ) : ℕ → UInt8 :=
  blit buffer 0 PAGE_SIZE (pageOf f k)

theorem pageBuffer_pageBuffer (f : File UInt8) (buffer : ℕ → UInt8) (j : ℕ) :
    pageBuffer f (pageBuffer f buffer j) = pageBuffer f buffer := by
  funext k
  exact blit_blit _ _ _ _ _

/-! ### The iterator -/

/-- What the call of `next` after `k` earlier ones returns. -/
def PageIterator.nthNext : ℕ → PageIterator → (ℕ → UInt8) → Option (ℕ → UInt8)
  | 0, it, buffer => (it.next buffer).map Prod.fst
  | k+1, it, buffer =>
    match it.next buffer with
    | none => PageIterator.nthNext k it buffer
    | some each => PageIterator.nthNext k each.2 each.1

theorem PageIterator.next_of_le {it : PageIterator} (h : it.stop ≤ it.it) (buffer : ℕ → UInt8) :
    it.next buffer = none := if_pos h

theorem PageIterator.Sound.next_pageBuffer {f : File UInt8} {it : PageIterator} (h : it.Sound f)
    (hlt : it.it.toNat < it.stop.toNat) (buffer : ℕ → UInt8) :
    ∃ it', it.next buffer = some (pageBuffer f buffer it.it.toNat,it') ∧
      it'.Sound f ∧ it'.it.toNat = it.it.toNat+1 ∧ it'.stop = it.stop :=
  h.next (UInt32.lt_iff_toNat_lt.mpr hlt) buffer

theorem PageIterator.Sound.nthNext {f : File UInt8} {it : PageIterator} (h : it.Sound f) (k : ℕ)
    (buffer : ℕ → UInt8) : it.nthNext k buffer =
      if it.it.toNat+k < it.stop.toNat then some (pageBuffer f buffer (it.it.toNat+k)) else none := by
  induction k generalizing it buffer with
  | zero =>
    rw [Nat.add_zero]
    by_cases hlt : it.it.toNat < it.stop.toNat
    · obtain ⟨it₁,hnext,-,-,-⟩ := h.next_pageBuffer hlt buffer
      rw [PageIterator.nthNext,hnext,if_pos hlt]
      rfl
    · have hle : it.stop ≤ it.it := by rw [UInt32.le_iff_toNat_le]; omega
      rw [PageIterator.nthNext,PageIterator.next_of_le hle,if_neg hlt]
      rfl
  | succ k ih =>
    by_cases hlt : it.it.toNat < it.stop.toNat
    · obtain ⟨it₁,hnext,hs,hit,hstop⟩ := h.next_pageBuffer hlt buffer
      simp only [PageIterator.nthNext,hnext]
      rw [ih hs,hit,hstop,show it.it.toNat+1+k = it.it.toNat+(k+1) by omega,pageBuffer_pageBuffer]
    · have hle : it.stop ≤ it.it := by rw [UInt32.le_iff_toNat_le]; omega
      simp only [PageIterator.nthNext,PageIterator.next_of_le hle]
      rw [ih h,if_neg (by omega),if_neg (by omega)]

/-! ### The loop of `fill_toast_map` -/

theorem fillPages_eq {f : File UInt8} (fuel : ℕ) {it : PageIterator} (h : it.Sound f)
    (hf : it.it.toNat+fuel = it.stop.toNat) (buffer : ℕ → UInt8) (positions : Positions) :
    (fillPages fuel it buffer (UInt32.ofNat it.it.toNat) positions).map Prod.fst =
      (List.range' it.it.toNat fuel).foldlM (fun positions k =>
        forLinp (pageBuffer f buffer k) (fillItem (pageBuffer f buffer k) (UInt32.ofNat k)) positions)
        positions := by
  induction fuel generalizing it buffer positions with
  | zero => rfl
  | succ fuel ih =>
    obtain ⟨it₁,hnext,hs,hit,hstop⟩ := h.next_pageBuffer (by omega) buffer
    have hpos : UInt32.ofNat it.it.toNat+1 = UInt32.ofNat it₁.it.toNat := by
      rw [hit,UInt32.ofNat_add]
      rfl
    rw [List.range'_succ,List.foldlM_cons]
    simp only [fillPages,hnext,hpos]
    cases hloop : forLinp (pageBuffer f buffer it.it.toNat)
        (fillItem (pageBuffer f buffer it.it.toNat) (UInt32.ofNat it.it.toNat)) positions with
    | error e => rfl
    | ok positions₁ =>
      have hrest := ih hs (by rw [hit,hstop]; omega) (pageBuffer f buffer it.it.toNat) positions₁
      simp only [pageBuffer_pageBuffer,hit] at hrest ⊢
      exact hrest

/-! ### The loop of `main` -/

structure UserCode (σ : Type) where
  setup : ℕ → Except Stop σ
  code : σ → ItemIdData → ItemHeader → ItemData → Except Stop σ
  finish : σ → σ

variable {σ : Type}

/-- The body of the loop over the line pointers; what is written to `stderr` is left out. -/
def mainItem (user : UserCode σ) (page : ℕ → UInt8) (s : σ) (i : ℕ) : Except Stop σ :=
  let itemid := pdLinp page i
  if itemid.admitted then user.code s itemid (getItemHeader page itemid) (getItemData page itemid)
  else return s

/-- The loop over the pages; the first argument is the number of pages that are left. -/
def mainLoop (user : UserCode σ) : ℕ → UInt32 → Stream UInt8 → (ℕ → UInt8) → σ → Except Stop σ
  | 0, _, _, _, s => return s
  | n+1, whichPage, input, buffer, s => do
    let page := readPage input whichPage buffer
    let s ← forLinp page.1 (mainItem user page.1) s
    mainLoop user n (whichPage+1) page.2 page.1 s

/-- The `try` block and the `catch` of an exit code: `main` returns a code and, for a run to the
end, the final state of the user code. -/
def mainTry (run : Except Stop σ) : Except Stop (ℤ × Option σ) :=
  match run with
  | .ok s => return (0,some s)
  | .error (.throwInt retcode) => return (retcode,none)
  | .error e => .error e

def main (user : UserCode σ) (argc : ℕ) (input : Stream UInt8) (buffer : ℕ → UInt8) :
    Except Stop (ℤ × Option σ) := do
  if argc < 2 then return (1,none)
  else
    assertion (input.failbit = false)
    let input := input.seekg input.file.size
    let size := UInt32.ofNat input.pos
    let input := input.seekg 0
    let pages := size/UInt32.ofNat PAGE_SIZE
    if size-pages*UInt32.ofNat PAGE_SIZE ≠ 0 then return (1,none)
    else if pages = 0 then return (1,none)
    else
      mainTry do
        let s ← user.setup argc
        let s ← mainLoop user pages.toNat 0 input buffer s
        return user.finish s

def mainOver (user : UserCode σ) (argc : ℕ) (pages : List (ℕ → UInt8)) : Except Stop (ℤ × Option σ) :=
  if argc < 2 ∨ pages = [] then return (1,none)
  else
    mainTry do
      let s ← user.setup argc
      let s ← pages.foldlM (fun s page => forLinp page (mainItem user page) s) s
      return user.finish s

theorem mainLoop_eq (user : UserCode σ) (n : ℕ) (whichPage : UInt32) (input : Stream UInt8)
    (hgood : input.failbit = false) (hin : PAGE_SIZE*(whichPage.toNat+n) ≤ input.file.size)
    (hsmall : PAGE_SIZE*(whichPage.toNat+n) < 2^32) (buffer : ℕ → UInt8) (s : σ) :
    mainLoop user n whichPage input buffer s =
      ((List.range' whichPage.toNat n).map (pageBuffer input.file buffer)).foldlM
        (fun s page => forLinp page (mainItem user page) s) s := by
  induction n generalizing whichPage input buffer s with
  | zero => rfl
  | succ n ih =>
    simp only [PAGE_SIZE] at hin hsmall
    obtain ⟨hpage,hfile,hgood'⟩ := readPage_inside hgood whichPage
      (by simp only [PAGE_SIZE]; omega) (by simp only [PAGE_SIZE]; omega) buffer
    have hsucc : (whichPage+1).toNat = whichPage.toNat+1 := toNat_add_one (by omega)
    rw [List.range'_succ,List.map_cons,List.foldlM_cons,mainLoop]
    simp only [hpage]
    change forLinp (pageBuffer input.file buffer whichPage.toNat) _ s >>= _ = _
    congr 1
    funext s₁
    have hrest := ih (whichPage+1) (readPage input whichPage buffer).2 hgood'
      (by rw [hsucc,hfile]; simp only [PAGE_SIZE]; omega)
      (by rw [hsucc]; simp only [PAGE_SIZE]; omega) (pageBuffer input.file buffer whichPage.toNat) s₁
    rw [hfile,hsucc,pageBuffer_pageBuffer] at hrest
    exact hrest

/-! ### All pages, in order -/

/-- The three loops take the pages of the file, each once and in order, and what is recorded for
an item of page `k` starts where the item's data lies in the file. -/
structure PagesFaithful (f : File UInt8) : Prop where
  iterator : ∀ buffer, ∃ it, PageIterator.make (.opened f) = .ok it ∧ ∀ k, it.nthNext k buffer =
    if k < f.size/PAGE_SIZE then some (pageBuffer f buffer k) else none
  main : ∀ (σ : Type) (user : UserCode σ) (argc : ℕ) (buffer : ℕ → UInt8),
    main user argc (.opened f) buffer =
      mainOver user argc ((List.range (f.size/PAGE_SIZE)).map (pageBuffer f buffer))
  filled : ∀ buffer, (fillToastMap buffer ⟨fun _ => none,.opened f⟩).map ToastMap.positions =
    (List.range (f.size/PAGE_SIZE)).foldlM (fun positions k =>
      forLinp (pageBuffer f buffer k) (fillItem (pageBuffer f buffer k) (UInt32.ofNat k)) positions)
      (fun _ => none)
  offset : ∀ (page : ℕ → UInt8) (itemid : ItemIdData), itemid.admitted = true → ∀ k < f.size/PAGE_SIZE,
    (chunkRange page (UInt32.ofNat k) itemid).first.toNat = PAGE_SIZE*k+itemid.lpOff+
      (getItemHeader page itemid).tHoff.toNat+8+(chunkVarlena page itemid).dataOffset.toNat

theorem make_of_aligned {f : File UInt8} (h : PAGE_SIZE ∣ f.size) :
    ∃ it, PageIterator.make (.opened f) = .ok it ∧ it.it = 0 ∧
      it.stop.toNat = f.size % 2^32/PAGE_SIZE := by
  have hn : (UInt32.ofNat f.size).toNat = f.size % 2^32 := UInt32.toNat_ofNat'
  have hdiv := PageIterator.toNat_size_div (UInt32.ofNat f.size)
  have hzero : UInt32.ofNat f.size-UInt32.ofNat f.size/UInt32.ofNat PAGE_SIZE*UInt32.ofNat PAGE_SIZE = 0 := by
    rw [PageIterator.sub_pages_eq_zero_iff,hn]
    simp only [PAGE_SIZE] at h ⊢
    omega
  refine ⟨⟨.opened f,0,UInt32.ofNat f.size/UInt32.ofNat PAGE_SIZE⟩,?_,rfl,by rw [hdiv,hn]; rfl⟩
  simp only [PageIterator.make,assertion,Stream.opened,Stream.seekg,if_true,bind,Except.bind,
    Bool.false_eq_true,if_false,hzero,ne_eq,not_true_eq_false]
  rfl

/-- From 4 GiB on the iterator ends before the last page of the file. -/
theorem not_pagesFaithful_of_large {f : File UInt8} (h : PAGE_SIZE ∣ f.size) (hsize : 2^32 ≤ f.size) :
    ¬ PagesFaithful f := by
  intro hf
  obtain ⟨it,hmake,hnext⟩ := hf.iterator fun _ => 0
  obtain ⟨it',hmake',hit,hstop⟩ := make_of_aligned h
  rw [hmake] at hmake'
  cases hmake'
  have hs : it.Sound f := PageIterator.sound_make hmake
  have hlast := hnext it.stop.toNat
  rw [hs.nthNext,hit,if_neg (by rw [UInt32.toNat_zero]; omega),if_pos] at hlast
  · cases hlast
  · rw [hstop]
    simp only [PAGE_SIZE]
    omega

theorem main_of_small {f : File UInt8} (h : PAGE_SIZE ∣ f.size) (hsize : f.size < 2^32)
    (user : UserCode σ) (argc : ℕ) (buffer : ℕ → UInt8) : main user argc (.opened f) buffer =
      mainOver user argc ((List.range (f.size/PAGE_SIZE)).map (pageBuffer f buffer)) := by
  have hn : (UInt32.ofNat f.size).toNat = f.size := UInt32.toNat_ofNat_of_lt' hsize
  have hdiv := PageIterator.toNat_size_div (UInt32.ofNat f.size)
  rw [hn] at hdiv
  have hzero : UInt32.ofNat f.size-UInt32.ofNat f.size/UInt32.ofNat PAGE_SIZE*UInt32.ofNat PAGE_SIZE = 0 := by
    rw [PageIterator.sub_pages_eq_zero_iff,hn]
    exact h
  have hnone : UInt32.ofNat f.size/UInt32.ofNat PAGE_SIZE = 0 ↔ f.size/PAGE_SIZE = 0 := by
    rw [← UInt32.toNat_inj,hdiv,UInt32.toNat_zero]
    rfl
  by_cases hargc : argc < 2
  · simp only [main,mainOver,hargc,true_or,if_true]
  · simp only [main,mainOver,hargc,assertion,Stream.opened,Stream.seekg,if_true,bind,Except.bind,
      Bool.false_eq_true,if_false,hzero,ne_eq,not_true_eq_false,false_or,hnone,List.map_eq_nil_iff,
      List.range_eq_nil]
    by_cases hpages : f.size/PAGE_SIZE = 0
    · simp only [hpages,if_true]
    · simp only [hpages,if_false]
      have hmul := Nat.mul_div_le f.size PAGE_SIZE
      have hloop := fun s => mainLoop_eq user (f.size/PAGE_SIZE) 0 ⟨f,0,false⟩ rfl
        (by rw [UInt32.toNat_zero,Nat.zero_add]; exact hmul)
        (by rw [UInt32.toNat_zero,Nat.zero_add]; omega) buffer s
      rw [hdiv]
      simp only [UInt32.toNat_zero,← List.range_eq_range'] at hloop
      congr 1
      cases user.setup argc with
      | error e => rfl
      | ok s => exact congrArg (fun r => r >>= fun s => pure (user.finish s)) (hloop s)

theorem fillToastMap_of_small {f : File UInt8} (h : PAGE_SIZE ∣ f.size) (hsize : f.size < 2^32)
    (buffer : ℕ → UInt8) : (fillToastMap buffer ⟨fun _ => none,.opened f⟩).map ToastMap.positions =
      (List.range (f.size/PAGE_SIZE)).foldlM (fun positions k =>
        forLinp (pageBuffer f buffer k) (fillItem (pageBuffer f buffer k) (UInt32.ofNat k)) positions)
        (fun _ => none) := by
  obtain ⟨it,hmake,hit,hstop⟩ := make_of_aligned h
  have hs : it.Sound f := PageIterator.sound_make hmake
  have hfill := fillPages_eq it.stop.toNat hs (by rw [hit,UInt32.toNat_zero,Nat.zero_add]) buffer
    fun _ => none
  rw [hit,UInt32.toNat_zero,← List.range_eq_range',hstop,Nat.mod_eq_of_lt hsize] at hfill
  rw [← hfill]
  simp only [fillToastMap,hmake,bind,Except.bind,hstop,Nat.mod_eq_of_lt hsize]
  change _ = Except.map Prod.fst (fillPages (f.size/PAGE_SIZE) it buffer 0 fun _ => none)
  cases fillPages (f.size/PAGE_SIZE) it buffer 0 fun _ => none with
  | error e => rfl
  | ok filled => rfl

theorem toNat_chunkRange_first_of_page {f : File UInt8} (h : PAGE_SIZE ∣ f.size) (hsize : f.size < 2^32)
    {page : ℕ → UInt8} {itemid : ItemIdData} (hadm : itemid.admitted = true) {k : ℕ}
    (hk : k < f.size/PAGE_SIZE) :
    (chunkRange page (UInt32.ofNat k) itemid).first.toNat = PAGE_SIZE*k+itemid.lpOff+
      (getItemHeader page itemid).tHoff.toNat+8+(chunkVarlena page itemid).dataOffset.toNat := by
  obtain ⟨-,-,hlen⟩ := itemid.admitted_iff.mp hadm
  have hhoff := (getItemHeader page itemid).tHoff.toNat_lt
  have hdata := (chunkVarlena page itemid).dataOffset_le
  simp only [PAGE_SIZE] at h hlen hk ⊢
  have hn : (UInt32.ofNat k).toNat = k := UInt32.toNat_ofNat_of_lt' (show k < 2^32 by omega)
  rw [toNat_chunkRange_first,hn]
  exact Nat.mod_eq_of_lt (by simp only [PAGE_SIZE]; omega)

/-- On a file of whole pages the iterator returns every page once and in order, `main` reads the
same pages, and recorded offsets are true, if and only if the file is below 4 GiB. -/
theorem pagesFaithful_iff {f : File UInt8} (h : PAGE_SIZE ∣ f.size) :
    PagesFaithful f ↔ f.size < 2^32 := by
  constructor
  · intro hf
    by_contra hlarge
    exact not_pagesFaithful_of_large h (by omega) hf
  · intro hsize
    refine ⟨fun buffer => ?_,fun σ user argc buffer => main_of_small h hsize user argc buffer,
      fillToastMap_of_small h hsize,
      fun page itemid hadm k hk => toNat_chunkRange_first_of_page h hsize hadm hk⟩
    obtain ⟨it,hmake,hit,hstop⟩ := make_of_aligned h
    have hs : it.Sound f := PageIterator.sound_make hmake
    refine ⟨it,hmake,fun k => ?_⟩
    rw [hs.nthNext,hit,hstop,Nat.mod_eq_of_lt hsize,UInt32.toNat_zero,Nat.zero_add]

def twoPages : File UInt8 := ⟨16384,fun _ => 0⟩

theorem pagesFaithful_twoPages : PagesFaithful twoPages ↔ twoPages.size < 2^32 :=
  pagesFaithful_iff (by decide)

/-- A file of 4 GiB is taken for an empty one. -/
theorem not_pagesFaithful_fourGiB : ¬ PagesFaithful ⟨2^32,fun _ => 0⟩ :=
  not_pagesFaithful_of_large (by decide) (le_refl _)

end PageDumper
