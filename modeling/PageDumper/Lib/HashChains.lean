import Mathlib.Data.List.Nodup
import Mathlib.Logic.Function.Basic

/-! Doubly linked lists threaded through a pool of entries, one list for each bucket. The
links live outside the lists they describe: a head for every bucket, and a successor and a
predecessor for every entry. `Represents` says which lists the links stand for. -/
namespace HashChains

variable {β ι : Type*}

structure Links (β ι : Type*) where
  head : β → Option ι
  next : ι → Option ι
  prev : ι → Option ι

/-- The entries `l` are linked in this order, with `p` before the first of them and `q` behind
the last. -/
def Seg (k : Links β ι) : Option ι → List ι → Option ι → Prop
  | _, [], _ => True
  | p, x::l, q => k.prev x = p ∧ k.next x = l.head?.or q ∧ Seg k (some x) l q

@[simp] theorem seg_nil (k : Links β ι) (p q : Option ι) : Seg k p [] q := trivial

theorem seg_append {k : Links β ι} {p q : Option ι} {l r : List ι} :
    Seg k p (l++r) q ↔ Seg k p l (r.head?.or q) ∧ Seg k (l.getLast?.or p) r q := by
  induction l generalizing p with
  | nil => simp
  | cons x l ih =>
    have hlast : (x::l).getLast?.or p = l.getLast?.or (some x) := by
      cases l <;> simp [List.getLast?_cons]
    rw [List.cons_append,Seg,Seg,ih,hlast,List.head?_append,Option.or_assoc]
    simp only [and_assoc]

theorem seg_concat {k : Links β ι} {p q : Option ι} {l : List ι} {x : ι} :
    Seg k p (l++[x]) q ↔ Seg k p l (some x) ∧ k.prev x = l.getLast?.or p ∧ k.next x = q := by
  simp [seg_append,Seg]

theorem Seg.congr {k k' : Links β ι} {p q : Option ι} {l : List ι} (h : Seg k p l q)
    (hn : ∀ x ∈ l, k'.next x = k.next x) (hp : ∀ x ∈ l, k'.prev x = k.prev x) : Seg k' p l q := by
  induction l generalizing p with
  | nil => trivial
  | cons x l ih =>
    obtain ⟨h₁,h₂,h₃⟩ := h
    refine ⟨(hp x (by simp)).trans h₁,(hn x (by simp)).trans h₂,?_⟩
    exact ih h₃ (fun y hy => hn y (by simp [hy])) fun y hy => hp y (by simp [hy])

/-- The links stand for these lists: each is linked from its head to its end, and no entry is
on two of them or twice on one. -/
structure Represents (k : Links β ι) (lists : β → List ι) : Prop where
  head : ∀ b, k.head b = (lists b).head?
  linked : ∀ b, Seg k none (lists b) none
  nodup : ∀ b, (lists b).Nodup
  disjoint : ∀ b c x, x ∈ lists b → x ∈ lists c → b = c

theorem represents_empty (next prev : ι → Option ι) :
    Represents ⟨fun _ : β => none,next,prev⟩ fun _ => [] :=
  ⟨fun _ => rfl,fun _ => trivial,fun _ => .nil,by simp⟩

theorem Represents.split {k : Links β ι} {lists : β → List ι} (h : Represents k lists) {b : β}
    {x : ι} {l r : List ι} (hb : lists b = l ++ x::r) :
    k.prev x = l.getLast? ∧ k.next x = r.head? ∧ Seg k none l (some x) ∧ Seg k (some x) r none := by
  have hl := h.linked b
  rw [hb,seg_append] at hl
  obtain ⟨h₁,h₂,h₃,h₄⟩ := hl
  exact ⟨by simpa using h₂,by simpa using h₃,h₁,h₄⟩

variable [DecidableEq β] [DecidableEq ι]

/-- Let whatever comes before an entry, the head if nothing does, go on behind it. -/
def linkForth (k : Links β ι) (b : β) (x : ι) : Links β ι :=
  match k.prev x with
  | none => {k with head := Function.update k.head b (k.next x)}
  | some p => {k with next := Function.update k.next p (k.next x)}

/-- Let the entry behind one go back to the entry before it. -/
def linkBack (k : Links β ι) (x : ι) : Links β ι :=
  match k.next x with
  | none => k
  | some n => {k with prev := Function.update k.prev n (k.prev x)}

def unlink (k : Links β ι) (b : β) (x : ι) : Links β ι := linkBack (linkForth k b x) x

def push (k : Links β ι) (b : β) (x : ι) : Links β ι :=
  let k := {k with next := Function.update k.next x (k.head b), prev := Function.update k.prev x none}
  let k := match k.head b with
    | none => k
    | some h => {k with prev := Function.update k.prev h (some x)}
  {k with head := Function.update k.head b (some x)}

def updateAt {α : Type*} (f : ι → α) (o : Option ι) (v : α) : ι → α :=
  match o with
  | none => f
  | some y => Function.update f y v

omit [DecidableEq β] in
theorem updateAt_of_ne {α : Type*} (f : ι → α) {o : Option ι} (v : α) {y : ι} (h : o ≠ some y) :
    updateAt f o v y = f y := by
  cases o with
  | none => rfl
  | some z => exact Function.update_of_ne (fun hz => h (congrArg some hz.symm)) v f

omit [DecidableEq β] in
theorem Seg.setNext {k : Links β ι} {p q : Option ι} {l : List ι} (h : Seg k p l q) (hl : l.Nodup)
    (q' : Option ι) : Seg {k with next := updateAt k.next l.getLast? q'} p l q' := by
  rcases List.eq_nil_or_concat l with rfl | ⟨l,y,rfl⟩
  · trivial
  · rw [List.concat_eq_append] at *
    have hy : y ∉ l := fun hy => by simpa [hy] using List.disjoint_of_nodup_append hl hy
    rw [seg_concat] at *
    obtain ⟨h₁,h₂,-⟩ := h
    refine ⟨h₁.congr (fun x hx => ?_) fun _ _ => rfl,h₂,by simp [updateAt]⟩
    have hxy : y ≠ x := fun e => hy (e ▸ hx)
    exact updateAt_of_ne k.next q' (by simpa using hxy)

omit [DecidableEq β] in
theorem Seg.setPrev {k : Links β ι} {p q : Option ι} {l : List ι} (h : Seg k p l q) (hl : l.Nodup)
    (p' : Option ι) : Seg {k with prev := updateAt k.prev l.head? p'} p' l q := by
  cases l with
  | nil => trivial
  | cons y l =>
    obtain ⟨-,h₂,h₃⟩ := h
    refine ⟨by simp [updateAt],h₂,h₃.congr (fun _ _ => rfl) fun x hx => ?_⟩
    have hxy : y ≠ x := fun e => (List.nodup_cons.mp hl).1 (e ▸ hx)
    exact updateAt_of_ne k.prev (o := some y) p' (by simpa using hxy)

theorem unlink_eq (k : Links β ι) (b : β) {x : ι} (hx : k.prev x ≠ some x) :
    unlink k b x = ⟨if k.prev x = none then Function.update k.head b (k.next x) else k.head,
      updateAt k.next (k.prev x) (k.next x),updateAt k.prev (k.next x) (k.prev x)⟩ := by
  have hnext := updateAt_of_ne k.next (k.next x) hx
  unfold unlink linkForth linkBack
  cases hp : k.prev x with
  | none => cases k.next x <;> simp [updateAt,hp]
  | some p =>
    rw [hp] at hnext
    simp only [updateAt] at hnext
    simp only [hnext]
    cases k.next x <;> simp [updateAt,hp]

/-- Taking an entry out of its list leaves every other entry on its list, in order. -/
theorem unlink_represents {k : Links β ι} {lists : β → List ι} (h : Represents k lists) {b : β}
    {x : ι} (hx : x ∈ lists b) : Represents (unlink k b x) fun c => (lists c).filter (· ≠ x) := by
  obtain ⟨l,r,hb⟩ := List.append_of_mem hx
  obtain ⟨hprev,hnext,hl,hr⟩ := h.split hb
  have hnd : (l ++ x::r).Nodup := hb ▸ h.nodup b
  have hxl : x ∉ l := fun hm => by simpa [hm] using List.disjoint_of_nodup_append hnd hm
  have hxr : x ∉ r := (List.nodup_cons.mp hnd.of_append_right).1
  have hlr : l.Disjoint r := fun y hy hy' => List.disjoint_of_nodup_append hnd hy (by simp [hy'])
  have hself : k.prev x ≠ some x := by
    rw [hprev]
    exact fun e => hxl (List.mem_of_getLast? e)
  have hout : (lists b).filter (· ≠ x) = l++r := by
    have hfl : l.filter (· ≠ x) = l := List.filter_eq_self.mpr fun y hy => by
      simpa using fun e : y = x => hxl (e ▸ hy)
    have hfr : r.filter (· ≠ x) = r := List.filter_eq_self.mpr fun y hy => by
      simpa using fun e : y = x => hxr (e ▸ hy)
    simp only [hb,List.filter_append,List.filter_cons,hfl,hfr]
    simp
  have hother : ∀ c, c ≠ b → (lists c).filter (· ≠ x) = lists c := by
    intro c hc
    refine List.filter_eq_self.mpr fun y hy => ?_
    simpa using fun e : y = x => hc (h.disjoint c b x (e ▸ hy) hx)
  rw [unlink_eq k b hself,hprev,hnext]
  refine ⟨fun c => ?_,fun c => ?_,fun c => (h.nodup c).filter _,fun c d y hc hd => ?_⟩
  · by_cases hc : c = b
    · subst hc
      rw [hout]
      cases l with
      | nil => simp
      | cons y l =>
        have hhead := h.head c
        rw [hb] at hhead
        simpa [List.getLast?_cons] using hhead
    · rw [hother c hc,← h.head c]
      split <;> simp [hc]
  · by_cases hc : c = b
    · subst hc
      rw [hout,seg_append,Option.or_none,Option.or_none]
      -- The front part changes its last successor only, the rear part its first predecessor.
      constructor
      · refine (hl.setNext hnd.of_append_left r.head?).congr (fun _ _ => rfl) fun y hy => ?_
        exact updateAt_of_ne k.prev _ fun e => hlr hy (List.mem_of_head? e)
      · have hrnd := (List.nodup_cons.mp hnd.of_append_right).2
        refine (hr.setPrev hrnd l.getLast?).congr (fun y hy => ?_) fun _ _ => rfl
        exact updateAt_of_ne k.next _ fun e => hlr (List.mem_of_getLast? e) hy
    · rw [hother c hc]
      have hmem : ∀ y ∈ lists c, y ∉ lists b := fun y hy hy' => hc (h.disjoint c b y hy hy')
      refine (h.linked c).congr (fun y hy => ?_) fun y hy => ?_
      · refine updateAt_of_ne k.next _ fun e => hmem y hy ?_
        rw [hb]
        exact List.mem_append_left _ (List.mem_of_getLast? e)
      · refine updateAt_of_ne k.prev _ fun e => hmem y hy ?_
        rw [hb]
        exact List.mem_append_right _ (List.mem_cons_of_mem _ (List.mem_of_head? e))
  · exact h.disjoint c d y (List.mem_filter.mp hc).1 (List.mem_filter.mp hd).1

theorem push_represents {k : Links β ι} {lists : β → List ι} (h : Represents k lists) (b : β)
    {x : ι} (hx : ∀ c, x ∉ lists c) :
    Represents (push k b x) (Function.update lists b (x::lists b)) := by
  have hhead := h.head b
  have hpush : push k b x = ⟨Function.update k.head b (some x),
      Function.update k.next x (lists b).head?,
      updateAt (Function.update k.prev x none) (lists b).head? (some x)⟩ := by
    rw [push,← hhead]
    cases hk : k.head b <;> simp [updateAt]
  have hne : ∀ {c y}, y ∈ lists c → y ≠ x := fun {c} y hy e => hx c (e ▸ hy)
  have hkept : ∀ {p q : Option ι} c, Seg k p (lists c) q →
      Seg ⟨k.head,Function.update k.next x (lists b).head?,Function.update k.prev x none⟩ p (lists c) q :=
    fun c hs => hs.congr (fun y hy => Function.update_of_ne (hne hy) _ _)
      fun y hy => Function.update_of_ne (hne hy) _ _
  rw [hpush]
  refine ⟨fun c => ?_,fun c => ?_,fun c => ?_,fun c d y hc hd => ?_⟩
  · by_cases hc : c = b
    · subst hc
      simp
    · simp [hc,h.head c]
  · by_cases hc : c = b
    · subst hc
      rw [Function.update_self]
      refine ⟨?_,by simp,?_⟩
      · have hfirst : (lists c).head? ≠ some x := fun e => hx c (List.mem_of_head? e)
        exact (updateAt_of_ne _ _ hfirst).trans (Function.update_self ..)
      · refine ((hkept c (h.linked c)).setPrev (h.nodup c) (some x)).congr ?_ ?_ <;> intros <;> rfl
    · rw [Function.update_of_ne hc]
      refine (hkept c (h.linked c)).congr (fun _ _ => rfl) fun y hy => ?_
      exact updateAt_of_ne _ _ fun e => hc (h.disjoint c b y hy (List.mem_of_head? e))
  · by_cases hc : c = b
    · subst hc
      rw [Function.update_self]
      exact List.nodup_cons.mpr ⟨hx c,h.nodup c⟩
    · rw [Function.update_of_ne hc]
      exact h.nodup c
  · have hcase : ∀ e, y ∈ Function.update lists b (x::lists b) e → y = x ∧ e = b ∨ y ∈ lists e := by
      intro e he
      by_cases heb : e = b
      · subst heb
        rw [Function.update_self] at he
        rcases List.mem_cons.mp he with hy | hy
        · exact .inl ⟨hy,rfl⟩
        · exact .inr hy
      · rw [Function.update_of_ne heb] at he
        exact .inr he
    rcases hcase c hc with ⟨hy,hcb⟩ | hc
    · rcases hcase d hd with ⟨-,hdb⟩ | hd
      · exact hcb.trans hdb.symm
      · exact absurd hy (hne hd)
    · rcases hcase d hd with ⟨hy,-⟩ | hd
      · exact absurd hy (hne hc)
      · exact h.disjoint c d y hc hd

end HashChains
