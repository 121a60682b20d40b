import PageDumper.PglzGreedy
import PageDumper.PglzRoundTrip

/-! `pglz_decompress` undoes `pglz_compress`: the datum that a successful run leaves is a header
and a stream of the format, and the decoder gives the source back. -/
namespace PageDumper
open Memory Words LZ77

theorem varsize_compressed {n : ℕ} (h : n < 2^30) : varsize ((UInt32.ofNat n <<< 2) ||| 2) = n := by
  have hn : (UInt32.ofNat n).toNat = n := by
    rw [UInt32.toNat_ofNat']
    omega
  have hshift : n <<< 2 % 2^32 = n <<< 2 := by
    rw [Nat.shiftLeft_eq]
    omega
  rw [varsize_eq,UInt32.toNat_or,UInt32.toNat_shiftLeft,hn]
  change (n <<< 2 % 2^32 ||| 2)/4 = n
  rw [hshift,← Nat.shiftLeft_add_eq_or_of_lt (by decide : 2 < 2^2),Nat.shiftLeft_eq]
  omega

section Datum

variable {source : ℕ → UInt8} {slen : ℕ} {dest : ℕ → UInt8} {strategy : Option PglzStrategy}
  {entries : ℕ → PglzHistEntry} {r : Compressed}

theorem pglzCompress_datum (hr : pglzCompress source slen dest strategy entries = some r)
    (hs : r.success = true) :
    let e := greedy source (strategy.getD strategyDefaultData) slen
    e.bytes.length < slen ∧ Holds r.dest 0 (leBytes ((UInt32.ofNat (e.bytes.length+8) <<< 2) ||| 2) ++
      (leBytes (UInt32.ofNat slen) ++ e.bytes)) := by
  intro e
  rw [pglzCompress_eq] at hr
  obtain rfl := Option.some.inj hr
  obtain ⟨-,-,hmax,hdest⟩ := plainCompress_success hs
  obtain ⟨hholds,-,-⟩ := ((emitted_startOutput slen dest).foldl e.codable).writeCtrl
  refine ⟨Nat.lt_of_lt_of_le hmax (resultMax_le _ slen),?_⟩
  rw [hdest]
  refine holds_append.mpr ⟨?_,?_⟩
  · rw [Holds,length_leBytes]
    exact window_blit _ 0 4 _
  · rw [length_leBytes]
    exact hholds.congr fun i _ => (putLe32_of_le _ _ (by omega)).symm

/-- A successful run writes a stream of the format in which every item is the one that a search of
the recent positions of the same hash, character by character, gives where the item starts. -/
theorem pglzCompress_greedy (hr : pglzCompress source slen dest strategy entries = some r)
    (hs : r.success = true) :
    ∃ e : PglzStream, Holds r.dest 0 (leBytes ((UInt32.ofNat (e.bytes.length+8) <<< 2) ||| 2) ++
        (leBytes (UInt32.ofNat slen) ++ e.bytes)) ∧
      e.expansion = window source 0 slen ∧
      ∀ pre i post, e.items = pre ++ i::post →
        i = nextItem source slen (strategy.getD strategyDefaultData) (expand pre).length :=
  ⟨_,(pglzCompress_datum hr hs).2,expansion_greedy source _ slen,fun _ _ _ h => greedy_split h⟩

theorem pglzCompress_header (hslen : slen+8 ≤ 2^30)
    (hr : pglzCompress source slen dest strategy entries = some r) (hs : r.success = true) :
    let e := greedy source (strategy.getD strategyDefaultData) slen
    varsize (le32 r.dest 0) = e.bytes.length+8 ∧ int32 (le32 r.dest 4) = slen ∧
      Holds r.dest 4 (leBytes (UInt32.ofNat slen) ++ e.bytes) ∧ Holds r.dest 8 e.bytes := by
  intro e
  obtain ⟨hlt,hdatum⟩ := pglzCompress_datum hr hs
  obtain ⟨hsize,hrest⟩ := holds_append.mp hdatum
  rw [length_leBytes,Nat.zero_add] at hrest
  obtain ⟨hraw,hbytes⟩ := holds_append.mp hrest
  have hn : (UInt32.ofNat slen).toNat = slen := by
    rw [UInt32.toNat_ofNat']
    omega
  refine ⟨?_,?_,hrest,hbytes⟩
  · rw [le32_of_holds hsize]
    exact varsize_compressed (by omega)
  · rw [le32_of_holds hraw,int32_of_lt (by omega),hn]

/-- Round trip. Whatever lies behind the datum and in the output area, the decoder gives the source
back, leaves the rest of the output area alone and reads nothing behind the datum. -/
theorem pglzDecompress_pglzCompress (hslen : slen+8 ≤ 2^30)
    (hr : pglzCompress source slen dest strategy entries = some r) (hs : r.success = true)
    (out : ℕ → UInt8) :
    (pglzDecompress r.dest out).exit = .returned ∧
      window (pglzDecompress r.dest out).state.dest 0 slen = window source 0 slen ∧
      (∀ i, slen ≤ i → (pglzDecompress r.dest out).state.dest i = out i) ∧
      ∀ i : ℕ, .source i ∈ (pglzDecompress r.dest out).state.log → i < varsize (le32 r.dest 0) := by
  obtain ⟨hvar,hint,-,hbytes⟩ := pglzCompress_header hslen hr hs
  have hexp := expansion_greedy source (strategy.getD strategyDefaultData) slen
  generalize greedy source (strategy.getD strategyDefaultData) slen = e at hvar hbytes hexp
  have hlen : e.expansion.length = slen := by rw [hexp,length_window]
  obtain ⟨s,hrun,hp⟩ := pglzDecompress_produces e r.dest out hbytes (by rw [hint,hlen]) (by omega)
  rw [hrun,hvar]
  refine ⟨rfl,?_,fun i hi => hp.rest i (hlen ▸ hi),fun i hi => ?_⟩
  · have hout : window s.dest 0 e.expansion.length = e.expansion := hp.dest
    rw [hlen] at hout
    rw [hout,hexp]
  · have := hp.source i hi
    omega

theorem pglzCompress_repeating : ∃ r,
    pglzCompress repeating 8 (fun _ => 0xee) (some strategyAlwaysData) (fun i => ⟨some (i+1),none,7,i⟩) =
      some r ∧ r.success = true ∧ varsize (le32 r.dest 0) = 14 := by
  have hrun : ((pglzCompress repeating 8 (fun _ => 0xee) (some strategyAlwaysData)
      fun i => ⟨some (i+1),none,7,i⟩).map fun r => (r.success,varsize (le32 r.dest 0))) =
      some (true,14) := by decide +kernel
  obtain ⟨r,hr,hs⟩ := Option.map_eq_some_iff.mp hrun
  obtain ⟨hsuccess,hsize⟩ := Prod.mk.inj hs
  exact ⟨r,hr,hsuccess,hsize⟩

theorem pglzCompress_greedy_repeating : ∃ r, ∃ e : PglzStream,
    pglzCompress repeating 8 (fun _ => 0xee) (some strategyAlwaysData) (fun i => ⟨some (i+1),none,7,i⟩) =
      some r ∧ Holds r.dest 4 (leBytes 8 ++ e.bytes) ∧ e.expansion = window repeating 0 8 := by
  obtain ⟨r,hr,hsuccess,-⟩ := pglzCompress_repeating
  obtain ⟨e,hdatum,hexp,-⟩ := pglzCompress_greedy hr hsuccess
  exact ⟨r,e,hr,(holds_append.mp hdatum).2,hexp⟩

theorem pglzDecompress_pglzCompress_repeating : ∃ r,
    pglzCompress repeating 8 (fun _ => 0xee) (some strategyAlwaysData) (fun i => ⟨some (i+1),none,7,i⟩) =
      some r ∧ varsize (le32 r.dest 0) = 14 ∧
      window (pglzDecompress r.dest fun _ => 0).state.dest 0 8 = window repeating 0 8 := by
  obtain ⟨r,hr,hsuccess,hsize⟩ := pglzCompress_repeating
  exact ⟨r,hr,hsize,(pglzDecompress_pglzCompress (by decide) hr hsuccess fun _ => 0).2.1⟩

end Datum

end PageDumper
