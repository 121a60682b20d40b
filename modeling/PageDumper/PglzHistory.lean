import Mathlib.Data.List.Range
import Mathlib.Tactic.Common
import PageDumper.Lib.HashChains

/-! The history of `pglz_compress`: the last 4096 input positions, on one chain for each hash
of the characters that follow. The entries form a ring that is overwritten in place, and
`Tracks` says what it holds after any number of characters. -/
namespace PageDumper
open HashChains

def PGLZ_HISTORY_LISTS : ℕ := 8192
def PGLZ_HISTORY_MASK : UInt32 := 8191
def PGLZ_HISTORY_SIZE : ℕ := 4096

/-- A `char` is signed here; it is promoted to `int`. -/
def char (c : UInt8) : UInt32 := c.toInt8.toInt32.toUInt32

/-- `pglz_hist_idx`, of the characters from `s` on in a source that ends at `e`. -/
def pglzHistIdx (source : ℕ → UInt8) (s e : ℕ) : ℕ :=
  ((if e-s < 4 then char (source s)
    else (char (source s) <<< 9) ^^^ (char (source (s+1)) <<< 6) ^^^ (char (source (s+2)) <<< 3) ^^^
      char (source (s+3))) &&& PGLZ_HISTORY_MASK).toNat

/-- `PGLZ_HistEntry`, the pointers as indices into `hist_entries`. -/
structure PglzHistEntry where
  next : Option ℕ
  prev : Option ℕ
  hindex : ℕ
  pos : ℕ

structure PglzHistory where
  histStart : ℕ → Option ℕ
  histEntries : ℕ → PglzHistEntry
  histNext : ℕ
  histRecycle : Bool

namespace PglzHistory

/-- At the head of `pglz_compress` the lists are empty; the entries are whatever the previous
call has left. -/
def start (entries : ℕ → PglzHistEntry) : PglzHistory := ⟨fun _ => none,entries,0,false⟩

def setEntry (h : PglzHistory) (i : ℕ) (x : PglzHistEntry) : PglzHistory :=
  { h with histEntries := Function.update h.histEntries i x }

def setStart (h : PglzHistory) (hindex : ℕ) (i : Option ℕ) : PglzHistory :=
  { h with histStart := Function.update h.histStart hindex i }

/-- The first `if` of the branch `_recycle`: whatever comes before the entry goes on behind it. -/
def linkForth (h : PglzHistory) (myhe : ℕ) : PglzHistory :=
  match (h.histEntries myhe).prev with
  | none => h.setStart (h.histEntries myhe).hindex (h.histEntries myhe).next
  | some p => h.setEntry p { h.histEntries p with next := (h.histEntries myhe).next }

/-- The second `if` of the branch `_recycle`: the entry behind goes back to the one before. -/
def linkBack (h : PglzHistory) (myhe : ℕ) : PglzHistory :=
  match (h.histEntries myhe).next with
  | none => h
  | some n => h.setEntry n { h.histEntries n with prev := (h.histEntries myhe).prev }

def recycle (h : PglzHistory) : PglzHistory :=
  if h.histRecycle then (h.linkForth h.histNext).linkBack h.histNext else h

def advance (h : PglzHistory) : PglzHistory :=
  if PGLZ_HISTORY_SIZE ≤ h.histNext+1 then { h with histNext := 0, histRecycle := true }
  else { h with histNext := h.histNext+1 }

def enter (h : PglzHistory) (hindex pos : ℕ) : PglzHistory :=
  let myhe := h.histNext
  let h := h.setEntry myhe ⟨h.histStart hindex,none,hindex,pos⟩
  let h := match h.histStart hindex with
    | none => h
    | some first => h.setEntry first { h.histEntries first with prev := some myhe }
  h.setStart hindex myhe

end PglzHistory

def pglzHistAdd (source : ℕ → UInt8) (e : ℕ) (h : PglzHistory) (s : ℕ) : PglzHistory :=
  let hindex := pglzHistIdx source s e
  (h.recycle.enter hindex s).advance

theorem pglzHistIdx_lt (source : ℕ → UInt8) (s e : ℕ) :
    pglzHistIdx source s e < PGLZ_HISTORY_LISTS := by
  rw [pglzHistIdx,UInt32.toNat_and]
  exact Nat.lt_succ_of_le Nat.and_le_right

theorem pglzHistIdx_congr {source : ℕ → UInt8} {s t e : ℕ} (hs : s+4 ≤ e) (ht : t+4 ≤ e)
    (h : ∀ i < 4, source (s+i) = source (t+i)) : pglzHistIdx source s e = pglzHistIdx source t e := by
  have h₀ := h 0 (by omega)
  have h₁ := h 1 (by omega)
  have h₂ := h 2 (by omega)
  have h₃ := h 3 (by omega)
  simp only [Nat.add_zero] at h₀
  rw [pglzHistIdx,pglzHistIdx,if_neg (by omega),if_neg (by omega),h₀,h₁,h₂,h₃]

namespace PglzHistory

def links (h : PglzHistory) : Links ℕ ℕ :=
  ⟨h.histStart,fun i => (h.histEntries i).next,fun i => (h.histEntries i).prev⟩

@[simp] theorem histStart_setEntry (h : PglzHistory) (i : ℕ) (x : PglzHistEntry) :
    (h.setEntry i x).histStart = h.histStart := rfl

theorem links_setEntry (h : PglzHistory) (i : ℕ) (x : PglzHistEntry) : (h.setEntry i x).links =
    ⟨h.histStart,Function.update h.links.next i x.next,Function.update h.links.prev i x.prev⟩ := by
  simp only [links,setEntry,Links.mk.injEq,true_and]
  exact ⟨funext fun j => Function.apply_update (fun _ => PglzHistEntry.next) h.histEntries i x j,
    funext fun j => Function.apply_update (fun _ => PglzHistEntry.prev) h.histEntries i x j⟩

theorem links_setStart (h : PglzHistory) (hindex : ℕ) (i : Option ℕ) :
    (h.setStart hindex i).links = { h.links with head := Function.update h.links.head hindex i } := rfl

@[simp] theorem links_advance (h : PglzHistory) : h.advance.links = h.links := by
  unfold advance
  split <;> rfl

def placed (h : PglzHistory) (i : ℕ) : ℕ × ℕ := ((h.histEntries i).pos,(h.histEntries i).hindex)

theorem placed_setEntry (h : PglzHistory) (i : ℕ) (x : PglzHistEntry) :
    (h.setEntry i x).placed = Function.update h.placed i (x.pos,x.hindex) :=
  funext fun j => Function.apply_update (fun _ e => (PglzHistEntry.pos e,PglzHistEntry.hindex e))
    h.histEntries i x j

theorem placed_setStart (h : PglzHistory) (hindex : ℕ) (i : Option ℕ) :
    (h.setStart hindex i).placed = h.placed := rfl

@[simp] theorem placed_advance (h : PglzHistory) : h.advance.placed = h.placed := by
  unfold advance
  split <;> rfl

theorem placed_setEntry_of_eq (h : PglzHistory) {i : ℕ} {x : PglzHistEntry}
    (hx : (x.pos,x.hindex) = h.placed i) : (h.setEntry i x).placed = h.placed := by
  rw [placed_setEntry,hx,Function.update_eq_self]

theorem links_setPrev (h : PglzHistory) (n : ℕ) (p : Option ℕ) :
    (h.setEntry n { h.histEntries n with prev := p }).links =
      { h.links with prev := Function.update h.links.prev n p } := by
  rw [links_setEntry]
  exact congrArg (fun f => (⟨h.histStart,f,_⟩ : Links ℕ ℕ)) (Function.update_eq_self n h.links.next)

theorem links_setNext (h : PglzHistory) (n : ℕ) (p : Option ℕ) :
    (h.setEntry n { h.histEntries n with next := p }).links =
      { h.links with next := Function.update h.links.next n p } := by
  rw [links_setEntry]
  exact congrArg (fun f => (⟨h.histStart,_,f⟩ : Links ℕ ℕ)) (Function.update_eq_self n h.links.prev)

theorem links_linkForth (h : PglzHistory) (i : ℕ) :
    (h.linkForth i).links = HashChains.linkForth h.links (h.histEntries i).hindex i := by
  have hprev : h.links.prev i = (h.histEntries i).prev := rfl
  rw [linkForth,HashChains.linkForth,hprev]
  cases (h.histEntries i).prev with
  | none => rfl
  | some p => exact links_setNext h p _

theorem links_linkBack (h : PglzHistory) (i : ℕ) :
    (h.linkBack i).links = HashChains.linkBack h.links i := by
  have hnext : h.links.next i = (h.histEntries i).next := rfl
  rw [linkBack,HashChains.linkBack,hnext]
  cases (h.histEntries i).next with
  | none => rfl
  | some n => exact links_setPrev h n _

@[simp] theorem placed_linkForth (h : PglzHistory) (i : ℕ) : (h.linkForth i).placed = h.placed := by
  rw [linkForth]
  cases (h.histEntries i).prev with
  | none => rfl
  | some p => exact h.placed_setEntry_of_eq rfl

@[simp] theorem placed_linkBack (h : PglzHistory) (i : ℕ) : (h.linkBack i).placed = h.placed := by
  rw [linkBack]
  cases (h.histEntries i).next with
  | none => rfl
  | some n => exact h.placed_setEntry_of_eq rfl

@[simp] theorem histNext_linkForth (h : PglzHistory) (i : ℕ) :
    (h.linkForth i).histNext = h.histNext := by
  rw [linkForth]
  split <;> rfl

@[simp] theorem histNext_linkBack (h : PglzHistory) (i : ℕ) :
    (h.linkBack i).histNext = h.histNext := by
  rw [linkBack]
  split <;> rfl

@[simp] theorem histRecycle_linkForth (h : PglzHistory) (i : ℕ) :
    (h.linkForth i).histRecycle = h.histRecycle := by
  rw [linkForth]
  split <;> rfl

@[simp] theorem histRecycle_linkBack (h : PglzHistory) (i : ℕ) :
    (h.linkBack i).histRecycle = h.histRecycle := by
  rw [linkBack]
  split <;> rfl

@[simp] theorem histNext_enter (h : PglzHistory) (hindex pos : ℕ) :
    (h.enter hindex pos).histNext = h.histNext := by
  simp only [enter,histStart_setEntry]
  split <;> rfl

@[simp] theorem histRecycle_enter (h : PglzHistory) (hindex pos : ℕ) :
    (h.enter hindex pos).histRecycle = h.histRecycle := by
  simp only [enter,histStart_setEntry]
  split <;> rfl

theorem links_enter (h : PglzHistory) (hindex pos : ℕ) :
    (h.enter hindex pos).links = push h.links hindex h.histNext := by
  have hhead : h.links.head hindex = h.histStart hindex := rfl
  have hset := links_setEntry h h.histNext ⟨h.histStart hindex,none,hindex,pos⟩
  simp only [enter,push,histStart_setEntry,hhead,links_setStart]
  cases hs : h.histStart hindex with
  | none =>
    rw [hs] at hset
    simp only [hset]
    rfl
  | some first =>
    rw [hs] at hset
    simp only [links_setPrev,hset]
    rfl

theorem placed_enter (h : PglzHistory) (hindex pos : ℕ) :
    (h.enter hindex pos).placed = Function.update h.placed h.histNext (pos,hindex) := by
  simp only [enter,histStart_setEntry,placed_setStart]
  cases h.histStart hindex with
  | none => exact placed_setEntry ..
  | some first => exact (placed_setEntry_of_eq _ (by rfl)).trans (placed_setEntry ..)

end PglzHistory

section Candidates

variable (source : ℕ → UInt8) (e : ℕ)

/-- The earlier positions of hash `b` among the last 4096, the nearest first. -/
def candidates (dp b : ℕ) : List ℕ :=
  ((List.range dp).filter fun p => dp ≤ p+4096 ∧ pglzHistIdx source p e = b).reverse

@[simp] theorem mem_candidates {dp b p : ℕ} :
    p ∈ candidates source e dp b ↔ p < dp ∧ dp ≤ p+4096 ∧ pglzHistIdx source p e = b := by
  simp [candidates]

theorem pairwise_candidates (dp b : ℕ) : (candidates source e dp b).Pairwise (· > ·) := by
  rw [candidates,List.pairwise_reverse]
  exact List.pairwise_lt_range.filter _

/-- One character further the oldest position is gone and the new one comes first. -/
theorem candidates_succ (dp b : ℕ) : candidates source e (dp+1) b =
    (if pglzHistIdx source dp e = b then [dp] else []) ++
      (candidates source e dp b).filter fun p => dp+1 ≤ p+4096 := by
  rw [candidates,candidates,List.range_succ,List.filter_append,List.reverse_append,
    List.filter_reverse,List.filter_filter]
  congr 1
  · split <;> simp [*]
  · refine congrArg List.reverse (List.filter_congr fun p _ => ?_)
    simp only [← Bool.decide_and,decide_eq_decide]
    omega

/-- In the ring of entries only the oldest position meets the new one. -/
theorem filter_ring (dp b : ℕ) :
    ((candidates source e dp b).map (· % 4096)).filter (· ≠ dp % 4096) =
      ((candidates source e dp b).filter fun p => dp+1 ≤ p+4096).map (· % 4096) := by
  rw [List.filter_map]
  refine congrArg (List.map _) (List.filter_congr fun p hp => ?_)
  obtain ⟨h₁,h₂,-⟩ := (mem_candidates source e).mp hp
  simp only [Function.comp,decide_eq_decide]
  omega

theorem nodup_ring (dp b : ℕ) : ((candidates source e dp b).map (· % 4096)).Nodup := by
  have hnd : (candidates source e dp b).Nodup := (pairwise_candidates source e dp b).imp Nat.ne_of_gt
  refine hnd.map_on fun p hp q hq hpq => ?_
  rw [mem_candidates] at hp hq
  omega

/-- What the history holds once all characters before `dp` are entered. -/
structure Tracks (dp : ℕ) (h : PglzHistory) : Prop where
  histNext : h.histNext = dp % 4096
  histRecycle : h.histRecycle = decide (4096 ≤ dp)
  chains : Represents h.links fun b => (candidates source e dp b).map (· % 4096)
  placed : ∀ p, p < dp → dp ≤ p+4096 → h.placed (p % 4096) = (p,pglzHistIdx source p e)

theorem Tracks.start (entries : ℕ → PglzHistEntry) : Tracks source e 0 (.start entries) :=
  ⟨rfl,rfl,represents_empty _ _,by simp⟩

variable {source e}

theorem Tracks.freed {dp : ℕ} {h : PglzHistory} (ht : Tracks source e dp h) :
    Represents h.recycle.links (fun b =>
      ((candidates source e dp b).filter fun p => dp+1 ≤ p+4096).map (· % 4096)) ∧
      h.recycle.placed = h.placed ∧ h.recycle.histNext = dp % 4096 ∧
      h.recycle.histRecycle = decide (4096 ≤ dp) := by
  have hnext := ht.histNext
  have hrec := ht.histRecycle
  by_cases hdp : 4096 ≤ dp
  · have hold : h.placed (dp % 4096) = (dp-4096,pglzHistIdx source (dp-4096) e) := by
      have hp := ht.placed (dp-4096) (by omega) (by omega)
      rwa [show (dp-4096) % 4096 = dp % 4096 by omega] at hp
    have hindex : (h.histEntries (dp % 4096)).hindex = pglzHistIdx source (dp-4096) e :=
      congrArg Prod.snd hold
    have hmem : dp % 4096 ∈ (candidates source e dp (pglzHistIdx source (dp-4096) e)).map (· % 4096) := by
      refine List.mem_map.mpr ⟨dp-4096,(mem_candidates source e).mpr ⟨by omega,by omega,rfl⟩,?_⟩
      omega
    have hun := unlink_represents ht.chains hmem
    simp only [filter_ring] at hun
    rw [PglzHistory.recycle,if_pos (by simp [hrec,hdp])]
    refine ⟨?_,by simp,by simp [hnext],by simp [hrec]⟩
    rw [PglzHistory.links_linkBack,PglzHistory.links_linkForth,hnext,hindex]
    exact hun
  · rw [PglzHistory.recycle,if_neg (by simpa [hrec] using hdp)]
    refine ⟨?_,rfl,hnext,hrec⟩
    have hall : ∀ b, ((candidates source e dp b).filter fun p => dp+1 ≤ p+4096) = candidates source e dp b :=
      fun b => List.filter_eq_self.mpr fun p hp => by simp; omega
    simp only [hall]
    exact ht.chains

/-- Every character entered keeps the history. -/
theorem Tracks.histAdd {dp : ℕ} {h : PglzHistory} (ht : Tracks source e dp h) :
    Tracks source e (dp+1) (pglzHistAdd source e h dp) := by
  obtain ⟨hreps,hplaced,hnext,hrec⟩ := ht.freed
  have hfree : ∀ b, dp % 4096 ∉
      ((candidates source e dp b).filter fun p => dp+1 ≤ p+4096).map (· % 4096) := by
    intro b hb
    rw [← filter_ring] at hb
    simp at hb
  have hpush := push_represents hreps (pglzHistIdx source dp e) hfree
  have hlists : Function.update (fun b =>
      ((candidates source e dp b).filter fun p => dp+1 ≤ p+4096).map (· % 4096))
      (pglzHistIdx source dp e) (dp % 4096 :: ((candidates source e dp (pglzHistIdx source dp e)).filter
        fun p => dp+1 ≤ p+4096).map (· % 4096)) =
      fun b => (candidates source e (dp+1) b).map (· % 4096) := by
    funext b
    by_cases hb : pglzHistIdx source dp e = b
    · subst hb
      simp [candidates_succ]
    · rw [Function.update_of_ne (Ne.symm hb),candidates_succ,if_neg hb,List.nil_append]
  rw [hlists] at hpush
  unfold pglzHistAdd
  refine ⟨?_,?_,?_,fun p hp hle => ?_⟩
  · rw [PglzHistory.advance,PglzHistory.histNext_enter,hnext,PGLZ_HISTORY_SIZE]
    split <;> simp only <;> omega
  · rw [PglzHistory.advance,PglzHistory.histNext_enter,hnext,PGLZ_HISTORY_SIZE]
    split
    · exact (decide_eq_true (by omega)).symm
    · simp only [PglzHistory.histRecycle_enter,hrec,decide_eq_decide]
      omega
  · rw [PglzHistory.links_advance,PglzHistory.links_enter,hnext]
    exact hpush
  · rw [PglzHistory.placed_advance,PglzHistory.placed_enter,hplaced,hnext]
    by_cases hpd : p = dp
    · rw [hpd,Function.update_self]
    · rw [Function.update_of_ne (by omega)]
      exact ht.placed p (by omega) (by omega)

end Candidates

end PageDumper
