import Mathlib.Data.Nat.Find
import PageDumper.Lib.Memory
import PageDumper.PglzHistory

/-! `pglz_find_match`. The code walks a linked list, compares with `memcmp` once it has sixteen
characters, and stops early on a good match; over a history that tracks the source it finds
what a plain search of the recent positions finds. -/
namespace PageDumper
open Memory HashChains

def PGLZ_MAX_MATCH : ℕ := 273

section FindMatch

variable (source : ℕ → UInt8) (e : ℕ)

/-- `while (ip < end && *ip == *hp && thislen < PGLZ_MAX_MATCH)`; the first argument is fuel. -/
def scanMatch : ℕ → ℕ → ℕ → ℕ → ℕ
  | 0, _, _, thislen => thislen
  | n+1, ip, hp, thislen =>
    if ip < e ∧ source ip = source hp ∧ thislen < PGLZ_MAX_MATCH then
      scanMatch n (ip+1) (hp+1) (thislen+1)
    else thislen

def entryMatch (input hp len : ℕ) : ℕ :=
  if 16 ≤ len then
    if window source input len = window source hp len then
      scanMatch source e PGLZ_MAX_MATCH (input+len) (hp+len) len
    else 0
  else scanMatch source e PGLZ_MAX_MATCH input hp 0

/-- `while (hent)`. The first argument is fuel; nothing is returned when it runs out. -/
def findMatchLoop (h : PglzHistory) (input goodDrop : ℕ) :
    ℕ → Option ℕ → ℕ → ℕ × ℕ → Option (ℕ × ℕ)
  | _, none, _, best => some best
  | 0, some _, _, _ => none
  | fuel+1, some hent, goodMatch, best =>
    let hp := (h.histEntries hent).pos
    let thisoff := input-hp
    if 0x0fff ≤ thisoff then some best
    else
      let thislen := entryMatch source e input hp best.1
      let best := if best.1 < thislen then (thislen,thisoff) else best
      let hent := (h.histEntries hent).next
      if hent.isSome ∧ goodMatch ≤ best.1 then some best
      else findMatchLoop h input goodDrop fuel hent (goodMatch-goodMatch*goodDrop/100) best

/-- `pglz_find_match`: length and offset of the match it reports, if any. -/
def pglzFindMatch (h : PglzHistory) (input goodMatch goodDrop : ℕ) : Option (Option (ℕ × ℕ)) :=
  (findMatchLoop source e h input goodDrop PGLZ_HISTORY_SIZE
    (h.histStart (pglzHistIdx source input e)) goodMatch (0,0)).map
      fun best => if 2 < best.1 then some best else none

/-- How far the text at `p` agrees with the text at `input`: not past its end, and no further
than a tag can say. -/
def commonLen (input p : ℕ) : ℕ :=
  Nat.findGreatest (fun n => input+n ≤ e ∧ window source input n = window source p n) PGLZ_MAX_MATCH

def better (input p : ℕ) (best : ℕ × ℕ) : ℕ × ℕ :=
  if best.1 < commonLen source e input p then (commonLen source e input p,input-p) else best

/-- The search without the linked list and without `memcmp`. -/
def search (input goodDrop : ℕ) : List ℕ → ℕ → ℕ × ℕ → ℕ × ℕ
  | [], _, best => best
  | p::ps, goodMatch, best =>
    if 0x0fff ≤ input-p then best
    else
      let best := better source e input p best
      if goodMatch ≤ best.1 then best
      else search input goodDrop ps (goodMatch-goodMatch*goodDrop/100) best

variable {source e}

theorem commonLen_le (input p : ℕ) : commonLen source e input p ≤ PGLZ_MAX_MATCH :=
  Nat.findGreatest_le _

theorem commonLen_spec {input : ℕ} (hi : input ≤ e) (p : ℕ) :
    input+commonLen source e input p ≤ e ∧
      window source input (commonLen source e input p) = window source p (commonLen source e input p) :=
  Nat.findGreatest_spec (P := fun n => input+n ≤ e ∧ window source input n = window source p n)
    (Nat.zero_le _) ⟨hi,rfl⟩

theorem le_commonLen {input p n : ℕ} (hn : n ≤ PGLZ_MAX_MATCH) (he : input+n ≤ e)
    (hw : window source input n = window source p n) : n ≤ commonLen source e input p :=
  Nat.le_findGreatest hn ⟨he,hw⟩

theorem window_eq_mono {input p m n : ℕ} (h : window source input n = window source p n) (hmn : m ≤ n) :
    window source input m = window source p m := by
  rw [window_eq_iff] at *
  exact fun i hi => h i (by omega)

theorem scanMatch_eq {input p l n : ℕ} (he : input+l ≤ e)
    (hw : window source input l = window source p l) (hl : l ≤ PGLZ_MAX_MATCH)
    (hn : PGLZ_MAX_MATCH ≤ l+n) :
    scanMatch source e n (input+l) (p+l) l = commonLen source e input p := by
  induction n generalizing l with
  | zero =>
    exact (Nat.findGreatest_eq_iff.mpr ⟨hl,fun _ => ⟨he,hw⟩,fun k _ _ => by omega⟩).symm
  | succ n ih =>
    rw [scanMatch]
    split
    · rename_i hstep
      have hw' : window source input (l+1) = window source p (l+1) := by
        rw [window_succ,window_succ,hw,hstep.2.1]
      exact ih (l := l+1) (by omega) hw' (by omega) (by omega)
    · rename_i hstop
      refine (Nat.findGreatest_eq_iff.mpr ⟨hl,fun _ => ⟨he,hw⟩,fun k hk hkm => ?_⟩).symm
      rintro ⟨hke,hkw⟩
      exact hstop ⟨by omega,window_eq_iff.mp hkw l hk,by omega⟩

/-- The `memcmp` shortcut never changes which match is kept. -/
theorem entryMatch_better {input p : ℕ} {best : ℕ × ℕ} (he : input+best.1 ≤ e)
    (hb : best.1 ≤ PGLZ_MAX_MATCH) :
    (if best.1 < entryMatch source e input p best.1 then (entryMatch source e input p best.1,input-p)
      else best) = better source e input p best := by
  unfold entryMatch better
  split
  · split
    · rename_i hw
      rw [scanMatch_eq he hw hb (by omega)]
    · rename_i hw
      have hshort : ¬best.1 < commonLen source e input p := fun hlt =>
        hw (window_eq_mono (commonLen_spec (by omega) p).2 (Nat.le_of_lt hlt))
      rw [if_neg (Nat.not_lt_zero _),if_neg hshort]
  · have hscan : scanMatch source e PGLZ_MAX_MATCH (input+0) (p+0) 0 = commonLen source e input p :=
      scanMatch_eq (by omega) rfl (Nat.zero_le _) (by omega)
    rw [Nat.add_zero,Nat.add_zero] at hscan
    rw [hscan]

def Fits (e input : ℕ) (best : ℕ × ℕ) : Prop :=
  input+best.1 ≤ e ∧ best.1 ≤ PGLZ_MAX_MATCH

theorem Fits.better {input : ℕ} {best : ℕ × ℕ} (h : Fits e input best) (source : ℕ → UInt8) (p : ℕ) :
    Fits e input (better source e input p best) := by
  unfold PageDumper.better
  split
  · exact ⟨(commonLen_spec (Nat.le_of_add_right_le h.1) p).1,commonLen_le input p⟩
  · exact h

variable (source) in
theorem findMatchLoop_eq {h : PglzHistory} {input : ℕ} {ps : List ℕ}
    (hpos : ∀ p ∈ ps, (h.histEntries (p % 4096)).pos = p) {fuel : ℕ} (hfuel : ps.length ≤ fuel)
    {prev : Option ℕ} (hseg : Seg h.links prev (ps.map (· % 4096)) none) (goodDrop goodMatch : ℕ)
    {best : ℕ × ℕ} (hbest : Fits e input best) :
    findMatchLoop source e h input goodDrop fuel (ps.map (· % 4096)).head? goodMatch best =
      some (search source e input goodDrop ps goodMatch best) := by
  induction ps generalizing fuel prev goodMatch best with
  | nil => cases fuel <;> rfl
  | cons p ps ih =>
    obtain ⟨fuel,rfl⟩ : ∃ k, fuel = k+1 := ⟨fuel-1,by rw [List.length_cons] at hfuel; omega⟩
    obtain ⟨-,hnext,hseg⟩ := hseg
    have hnext : (h.histEntries (p % 4096)).next = (ps.map (· % 4096)).head? :=
      hnext.trans Option.or_none
    have hp := hpos p (by simp)
    simp only [List.map_cons,List.head?_cons,findMatchLoop,search,hp,hnext,
      entryMatch_better hbest.1 hbest.2]
    split
    · rfl
    · have hrest := ih (fun q hq => hpos q (by simp [hq])) (Nat.le_of_succ_le_succ hfuel) hseg
        (goodMatch-goodMatch*goodDrop/100) (hbest.better source p)
      rw [hrest]
      cases ps with
      | nil => simp [search]
      | cons q ps =>
        simp only [List.map_cons,List.head?_cons,Option.isSome_some,true_and]
        exact (apply_ite some _ _ _).symm

theorem length_candidates_le (source : ℕ → UInt8) (e dp b : ℕ) :
    (candidates source e dp b).length ≤ 4096 := by
  have hsub : (candidates source e dp b).map (· % 4096) ⊆ List.range 4096 := by
    intro i hi
    obtain ⟨p,-,rfl⟩ := List.mem_map.mp hi
    exact List.mem_range.mpr (Nat.mod_lt p (by omega))
  simpa using List.Nodup.length_le_of_subset (nodup_ring source e dp b) hsub

/-- Over a history that tracks the source, `pglz_find_match` reports what the plain search of the
recent positions of the same hash reports. -/
theorem pglzFindMatch_eq {h : PglzHistory} {dp : ℕ} (ht : Tracks source e dp h) (hdp : dp ≤ e)
    (goodMatch goodDrop : ℕ) :
    let best := search source e dp goodDrop (candidates source e dp (pglzHistIdx source dp e)) goodMatch (0,0)
    pglzFindMatch source e h dp goodMatch goodDrop = some (if 2 < best.1 then some best else none) := by
  have hpos : ∀ p ∈ candidates source e dp (pglzHistIdx source dp e), (h.histEntries (p % 4096)).pos = p := by
    intro p hp
    obtain ⟨h₁,h₂,-⟩ := (mem_candidates source e).mp hp
    exact congrArg Prod.fst (ht.placed p h₁ h₂)
  have hstart : Fits e dp (0,0) := ⟨hdp,Nat.zero_le _⟩
  have hloop := findMatchLoop_eq source hpos (length_candidates_le source e dp _)
    (ht.chains.linked (pglzHistIdx source dp e)) goodDrop goodMatch hstart
  have hhead : h.histStart (pglzHistIdx source dp e) =
      ((candidates source e dp (pglzHistIdx source dp e)).map (· % 4096)).head? := ht.chains.head _
  rw [pglzFindMatch,hhead,PGLZ_HISTORY_SIZE,hloop]
  rfl

/-- A match that can be coded as a tag: the text at `input` repeats the text `off` before it. -/
structure Match (source : ℕ → UInt8) (e input len off : ℕ) : Prop where
  length : 3 ≤ len ∧ len ≤ PGLZ_MAX_MATCH
  offset : 1 ≤ off ∧ off < 0x0fff
  behind : off ≤ input
  inside : input+len ≤ e
  agrees : ∀ i < len, source (input+i) = source (input-off+i)

theorem search_sound {input : ℕ} (goodDrop : ℕ) (ps : List ℕ) (goodMatch : ℕ) (best : ℕ × ℕ) :
    search source e input goodDrop ps goodMatch best = best ∨
      ∃ p ∈ ps, input-p < 0x0fff ∧
        search source e input goodDrop ps goodMatch best = (commonLen source e input p,input-p) := by
  induction ps generalizing goodMatch best with
  | nil => exact .inl rfl
  | cons p ps ih =>
    rw [search]
    split
    · exact .inl rfl
    · have hkept : better source e input p best = best ∨ ∃ q ∈ p::ps, input-q < 0x0fff ∧
          better source e input p best = (commonLen source e input q,input-q) := by
        unfold better
        split
        · exact .inr ⟨p,by simp,by omega,rfl⟩
        · exact .inl rfl
      simp only
      split
      · exact hkept
      · rcases ih (goodMatch-goodMatch*goodDrop/100) (better source e input p best) with heq | ⟨q,hq,hoff,heq⟩
        · rw [heq]
          exact hkept
        · exact .inr ⟨q,by simp [hq],hoff,heq⟩

theorem search_match {dp : ℕ} (hdp : dp ≤ e) {goodMatch goodDrop b : ℕ}
    (h : 2 < (search source e dp goodDrop (candidates source e dp b) goodMatch (0,0)).1) :
    Match source e dp (search source e dp goodDrop (candidates source e dp b) goodMatch (0,0)).1
      (search source e dp goodDrop (candidates source e dp b) goodMatch (0,0)).2 := by
  rcases search_sound goodDrop (candidates source e dp b) goodMatch (0,0) with heq | ⟨p,hp,hoff,heq⟩
  · rw [heq] at h
    omega
  · rw [heq] at h ⊢
    obtain ⟨hpd,-,-⟩ := (mem_candidates source e).mp hp
    obtain ⟨hin,hagree⟩ := commonLen_spec hdp p
    refine ⟨⟨h,commonLen_le dp p⟩,⟨Nat.sub_pos_of_lt hpd,hoff⟩,Nat.sub_le dp p,hin,fun i hi => ?_⟩
    rw [Nat.sub_sub_self (Nat.le_of_lt hpd)]
    exact window_eq_iff.mp hagree i hi

theorem pglzFindMatch_sound {h : PglzHistory} {dp : ℕ} (ht : Tracks source e dp h) (hdp : dp ≤ e)
    {goodMatch goodDrop len off : ℕ}
    (hm : pglzFindMatch source e h dp goodMatch goodDrop = some (some (len,off))) :
    Match source e dp len off := by
  rw [pglzFindMatch_eq ht hdp,Option.some_inj] at hm
  split at hm
  · rename_i hlen
    rw [Option.some_inj] at hm
    have hmatch := search_match hdp hlen
    rw [hm] at hmatch
    exact hmatch
  · cases hm

theorem three_le_drop {goodMatch goodDrop : ℕ} (h : 3 ≤ goodMatch) (hd : goodDrop ≤ 33) :
    3 ≤ goodMatch-goodMatch*goodDrop/100 := by
  have hmul : goodMatch*goodDrop ≤ goodMatch*33 := Nat.mul_le_mul_left _ hd
  omega

theorem le_better (input p : ℕ) (best : ℕ × ℕ) :
    best.1 ≤ (better source e input p best).1 ∧ commonLen source e input p ≤ (better source e input p best).1 := by
  unfold better
  split
  · rename_i hlt
    exact ⟨Nat.le_of_lt hlt,le_rfl⟩
  · rename_i hge
    exact ⟨le_rfl,Nat.le_of_not_lt hge⟩

theorem le_search {input : ℕ} (goodDrop : ℕ) (ps : List ℕ) (goodMatch : ℕ) (best : ℕ × ℕ) :
    best.1 ≤ (search source e input goodDrop ps goodMatch best).1 := by
  induction ps generalizing goodMatch best with
  | nil => exact le_rfl
  | cons p ps ih =>
    rw [search]
    split
    · exact le_rfl
    · simp only
      split
      · exact (le_better input p best).1
      · exact (le_better input p best).1.trans (ih _ _)

theorem search_complete {input goodDrop : ℕ} (hd : goodDrop ≤ 33) {ps : List ℕ}
    (hps : ps.Pairwise (· > ·)) {goodMatch : ℕ} (hg : 3 ≤ goodMatch) {best : ℕ × ℕ}
    (h : (search source e input goodDrop ps goodMatch best).1 ≤ 2) :
    ∀ p ∈ ps, input-p < 0x0fff → commonLen source e input p ≤ 2 := by
  induction ps generalizing goodMatch best with
  | nil => simp
  | cons p ps ih =>
    obtain ⟨hlt,hps⟩ := List.pairwise_cons.mp hps
    rw [search] at h
    split at h
    · -- The positions further back are out of reach too.
      intro q hq hoff
      rcases List.mem_cons.mp hq with rfl | hq
      · omega
      · have := hlt q hq
        omega
    · simp only at h
      split at h
      · omega
      · have hle := (@le_better source e input p best).2
        have hkept := @le_search source e input goodDrop ps
          (goodMatch-goodMatch*goodDrop/100) (better source e input p best)
        intro q hq hoff
        rcases List.mem_cons.mp hq with rfl | hq
        · omega
        · exact ih hps (three_le_drop hg hd) h q hq hoff

/-- While the good match is lowered slowly, no match is missed among the reachable positions of
the same hash. -/
theorem pglzFindMatch_eq_none_iff {h : PglzHistory} {dp : ℕ} (ht : Tracks source e dp h) (hdp : dp ≤ e)
    {goodMatch goodDrop : ℕ} (hg : 3 ≤ goodMatch) (hd : goodDrop ≤ 33) :
    pglzFindMatch source e h dp goodMatch goodDrop = some none ↔
      ∀ p < dp, dp-p < 0x0fff → pglzHistIdx source p e = pglzHistIdx source dp e →
        commonLen source e dp p < 3 := by
  rw [pglzFindMatch_eq ht hdp,Option.some_inj]
  constructor
  · intro hnone p hp hoff hidx
    split at hnone
    · cases hnone
    · rename_i hlen
      have hmem := (mem_candidates source e).mpr ⟨hp,by omega,hidx⟩
      exact Nat.lt_succ_of_le (search_complete hd (pairwise_candidates source e dp _) hg
        (Nat.le_of_not_lt hlen) p hmem hoff)
  · intro hall
    rw [if_neg]
    rcases search_sound goodDrop (candidates source e dp (pglzHistIdx source dp e)) goodMatch (0,0)
      with heq | ⟨p,hp,hoff,heq⟩
    · rw [heq]
      simp
    · obtain ⟨hpd,-,hidx⟩ := (mem_candidates source e).mp hp
      have := hall p hpd hoff hidx
      rw [heq]
      simp only
      omega

/-- Where no match is found the next four characters are new: they stand nowhere in the 4094
positions before. -/
theorem fresh_of_search {dp goodDrop : ℕ} (hdp : dp+4 ≤ e) (hd : goodDrop ≤ 33) {goodMatch : ℕ}
    (hg : 3 ≤ goodMatch) (hnone : (search source e dp goodDrop
      (candidates source e dp (pglzHistIdx source dp e)) goodMatch (0,0)).1 ≤ 2) {p : ℕ} (hp : p < dp)
    (hoff : dp-p < 0x0fff) : window source dp 4 ≠ window source p 4 := by
  intro hw
  have hidx : pglzHistIdx source p e = pglzHistIdx source dp e :=
    pglzHistIdx_congr (by omega) hdp fun i hi => (window_eq_iff.mp hw i hi).symm
  have hmem := (mem_candidates source e).mpr ⟨hp,by omega,hidx⟩
  have hle := search_complete hd (pairwise_candidates source e dp _) hg hnone p hmem hoff
  have hfour := le_commonLen (by decide) hdp hw
  omega

section Congr

variable {source' : ℕ → UInt8} (h : ∀ a < e, source a = source' a)
include h

theorem pglzHistIdx_source {s : ℕ} (hs : s < e) : pglzHistIdx source s e = pglzHistIdx source' s e := by
  unfold pglzHistIdx
  split
  · rw [h s hs]
  · rw [h s hs,h (s+1) (by omega),h (s+2) (by omega),h (s+3) (by omega)]

theorem candidates_source {dp : ℕ} (hdp : dp ≤ e) (b : ℕ) :
    candidates source e dp b = candidates source' e dp b := by
  unfold candidates
  refine congrArg List.reverse (List.filter_congr fun p hp => ?_)
  rw [pglzHistIdx_source h (Nat.lt_of_lt_of_le (List.mem_range.mp hp) hdp)]

theorem commonLen_source_le {input p : ℕ} (hin : input ≤ e) (hp : p ≤ input) :
    commonLen source e input p ≤ commonLen source' e input p := by
  obtain ⟨hlen,hw⟩ := @commonLen_spec source e input hin p
  refine le_commonLen (commonLen_le input p) hlen ?_
  rwa [window_congr fun i hi => h (input+i) (by omega),
    window_congr fun i hi => h (p+i) (by omega)] at hw

theorem search_source {input : ℕ} (hin : input ≤ e) (goodDrop : ℕ) {ps : List ℕ} (hps : ∀ p ∈ ps, p ≤ input)
    (goodMatch : ℕ) (best : ℕ × ℕ) :
    search source e input goodDrop ps goodMatch best = search source' e input goodDrop ps goodMatch best := by
  induction ps generalizing goodMatch best with
  | nil => rfl
  | cons p ps ih =>
    have hp := hps p (by simp)
    have hlen : commonLen source e input p = commonLen source' e input p :=
      Nat.le_antisymm (commonLen_source_le h hin hp)
        (commonLen_source_le (fun a ha => (h a ha).symm) hin hp)
    rw [search,search,better,better,hlen]
    simp only [ih fun q hq => hps q (by simp [hq])]

end Congr

end FindMatch

end PageDumper
