import PageDumper.PglzAddress

/-! Where `pglz_decompress` stores, for every address that it can be given. `fetch_data` makes an
output vector of `rawsize+1024` elements, and for a `rawsize` of -1024 the vector is empty and
its address is NULL. The end of the output then lies near the top of the address space, so the
loops are entered, and the first byte of output is where the process ends. -/
namespace PageDumper
open Memory Words

/-! ### The run on NULL -/

/-- The item at which the process is killed: a literal at its store, a tag at its first load. -/
def Decoder.killedAt (src : ℕ → UInt8) (ctrl : ℕ) (s : Decoder) : Decoder :=
  if ctrl &&& 1 ≠ 0 then
    { (readTag src s).2 with log := .load (wrap (-(readTag src s).1.2))::(readTag src s).2.log }
  else { (s.fetch src).2 with log := .store 0::.source s.sp::s.log }

theorem before_killedAt (src : ℕ → UInt8) (ctrl : ℕ) (s : Decoder) : Before s (s.killedAt src ctrl) := by
  rw [Decoder.killedAt]
  split
  · exact (Before.readTag src s).trans (.access _ _)
  · exact (Before.fetch src s).trans (.access _ _)

theorem int32_bounds (w : UInt32) : -2^31 ≤ int32 w ∧ int32 w < 2^31 := by
  have hlt := w.toNat_lt
  rw [int32_eq]
  split_ifs <;> omega

theorem wrap_null {rawsize : UInt32} (h : int32 rawsize < 0) :
    (wrap ((0 : ℕ)+int32 rawsize) : ℤ) = 2^64+int32 rawsize := by
  have hmin := int32_bounds rawsize
  rw [wrap]
  omega

theorem itemsAt_null {src : ℕ → UInt8} {srcend destend : ℕ} (k ctrl : ℕ) {s : Decoder}
    (hsp : s.sp < srcend) (hdp : s.dp = 0) (hend : 2^31 ≤ destend) :
    itemsAt src srcend 0 destend (k+1) ctrl s = .error (.killed,s.killedAt src ctrl) := by
  obtain ⟨hlen,hoff⟩ := readTag_bounds src s
  have hthree := le_readTag_len src s
  rw [itemsAt,if_pos hsp,Decoder.killedAt]
  by_cases hbit : ctrl &&& 1 ≠ 0
  · obtain ⟨n,hn⟩ : ∃ n, (readTag src s).1.1 = n+1 := ⟨(readTag src s).1.1-1,by omega⟩
    have hto := wrap_of_lt (a := ((readTag src s).2.dp : ℤ)+(readTag src s).1.1)
      (by omega) (by rw [readTag_dp]; omega)
    have hback : ((readTag src s).2.dp : ℤ)-(readTag src s).1.2 = -(readTag src s).1.2 := by
      rw [readTag_dp,hdp]
      omega
    have hkill : Unmapped (wrap (-(readTag src s).1.2)) := by
      simp only [Unmapped,wrap]
      omega
    simp only [if_pos hbit]
    rw [if_neg (by rw [readTag_dp,hdp] at hto ⊢; omega),hn,copyTagAt,if_pos (Nat.zero_le _),hback,
      Decoder.load,if_pos hkill]
    rfl
  · have hkill : Unmapped 0 := .inl (by omega)
    simp only [if_neg hbit]
    rw [hdp,if_neg (by omega),Decoder.store,if_pos hkill]
    rfl

theorem decodeAt_first {source : ℕ → UInt8} {srcend dest destend : ℕ} {memory : ℕ → UInt8}
    (hsrc : 8 < srcend) (hdest : dest < destend) :
    decodeAt source srcend dest destend srcend (.startAt dest memory) =
      (itemsAt source srcend dest destend 8 (source 8).toNat
        ((Decoder.startAt dest memory).fetch source).2 >>=
          decodeAt source srcend dest destend (srcend-1)) := by
  obtain ⟨fuel,rfl⟩ : ∃ f, srcend = f+1 := ⟨srcend-1,by omega⟩
  rw [decodeAt,if_pos ⟨hsrc,hdest⟩]
  rfl

/-- On NULL nothing is decompressed: the control byte and the first item are read, as far as
there is input, and then the process is killed. -/
theorem pglzDecompressAt_null {source : ℕ → UInt8} (h : int32 (le32 source 4) < 0)
    (memory : ℕ → UInt8) :
    pglzDecompressAt source 0 memory =
      let s := Decoder.startAt 0 memory
      if 9 < varsize (le32 source 0) then
        ⟨.killed,(s.fetch source).2.killedAt source (source 8).toNat⟩
      else if 8 < varsize (le32 source 0) then ⟨.returned,(s.fetch source).2⟩
      else ⟨if varsize (le32 source 0) = 8 then .returned else .aborted,s⟩ := by
  have hend := wrap_null h
  have hmin := int32_bounds (le32 source 4)
  have hdest : 0 < wrap ((0 : ℕ)+int32 (le32 source 4)) := by omega
  have hsp : ((Decoder.startAt 0 memory).fetch source).2.sp = 9 := rfl
  dsimp only
  by_cases hfirst : 8 < varsize (le32 source 0)
  · have hstep := @decodeAt_first source _ 0 _ memory hfirst hdest
    rw [if_pos hfirst]
    by_cases hsecond : 9 < varsize (le32 source 0)
    · rw [itemsAt_null 7 (source 8).toNat (by omega) rfl (by omega)] at hstep
      rw [if_pos hsecond]
      exact pglzDecompressAt_of_error hstep
    · rw [if_neg hsecond,pglzDecompressAt_of_ok (s := ((Decoder.startAt 0 memory).fetch source).2),
        if_neg (by omega)]
      rw [hstep,itemsAt,if_neg (by omega)]
      exact decodeAt_stop _ (.inl (by omega))
  · have hstop : varsize (le32 source 0) ≤ (Decoder.startAt 0 memory).sp := Nat.le_of_not_lt hfirst
    rw [if_neg (by omega),if_neg hfirst,pglzDecompressAt_of_ok (decodeAt_stop _ (.inl hstop))]
    by_cases heq : varsize (le32 source 0) = 8
    · rw [if_pos heq,if_neg (by simp only [Decoder.startAt]; omega)]
    · rw [if_neg heq,if_pos ⟨hdest,by simp only [Decoder.startAt]; omega⟩]

/-! ### The stores of any run -/

/-- All logged stores hit the output proper, and the rest of the memory is as before. -/
structure StoresInside (dest : ℕ) (rawsize : ℤ) (memory : ℕ → UInt8) (s : Decoder) : Prop where
  store : ∀ a : ℕ, .store a ∈ s.log → dest ≤ a ∧ (a : ℤ) < dest+rawsize
  frame : ∀ a : ℕ, a < dest ∨ dest+rawsize ≤ a → s.dest a = memory a

/-- What `dest` can be: NULL for the empty vector, or an address that has memory and room for
`rawsize` bytes and a spare kilobyte behind it. -/
structure Destination (rawsize : ℤ) where
  dest : ℕ
  mapped : dest = 0 ∧ rawsize = -1024 ∨ 4096 ≤ dest
  room : dest+rawsize+1024 ≤ 2^64-4096

theorem storesInside_of_area {source : ℕ → UInt8} {dest : ℕ}
    (h : OutputArea dest (int32 (le32 source 4))) (memory : ℕ → UInt8) :
    StoresInside dest (int32 (le32 source 4)) memory (pglzDecompressAt source dest memory).state := by
  have hsafe := pglzDecompress_storesWithin source fun i => memory (dest+i)
  rw [pglzDecompressAt_of_area h]
  refine ⟨fun a ha => ?_,fun a ha => ?_⟩
  · simp only [Decoder.shift,List.mem_map] at ha
    obtain ⟨access,hlog,he⟩ := ha
    cases access with
    | store i =>
      have := hsafe.store i hlog
      rw [Access.shift,Access.store.injEq] at he
      omega
    | source i => cases he
    | load i => cases he
  · simp only [Decoder.shift]
    split_ifs with hlt
    · rfl
    · rw [hsafe.frame _ (by omega),Nat.add_sub_cancel' (by omega)]

theorem storesInside_of_noStore {dest : ℕ} {rawsize : ℤ} {memory : ℕ → UInt8} {s : Decoder}
    (hlog : ∀ a : ℕ, .store a ∉ s.log) (hdest : s.dest = memory) :
    StoresInside dest rawsize memory s :=
  ⟨fun a ha => absurd ha (hlog a),fun a _ => congrFun hdest a⟩

theorem not_mem_startAt (a dest : ℕ) (memory : ℕ → UInt8) :
    .store a ∉ (Decoder.startAt dest memory).log := by
  simp [Decoder.startAt]

theorem store_mem_readTag {src : ℕ → UInt8} {s : Decoder} {a : ℕ} :
    .store a ∈ (readTag src s).2.log ↔ .store a ∈ s.log := by
  simp only [readTag]
  split <;> simp [Decoder.fetch]

theorem storesInside_of_short {source : ℕ → UInt8} (h : varsize (le32 source 0) ≤ 9) (dest : ℕ)
    (rawsize : ℤ) (memory : ℕ → UInt8) :
    StoresInside dest rawsize memory (pglzDecompressAt source dest memory).state := by
  rw [pglzDecompressAt_state]
  generalize wrap (dest+int32 (le32 source 4)) = destend
  generalize varsize (le32 source 0) = srcend at h
  by_cases hc : 8 < srcend ∧ dest < destend
  · rw [decodeAt_first hc.1 hc.2,itemsAt,if_neg (by simp only [Decoder.startAt,Decoder.fetch]; omega)]
    change StoresInside _ _ _ (leftState (decodeAt source srcend dest destend (srcend-1) _))
    rw [decodeAt_stop _ (.inl (by simp only [Decoder.startAt,Decoder.fetch]; omega))]
    exact storesInside_of_noStore (by simp [Decoder.fetch,Decoder.startAt]) rfl
  · rw [decodeAt_stop _ (by simp only [Decoder.startAt]; omega)]
    exact storesInside_of_noStore (fun a => not_mem_startAt a dest memory) rfl

/-- The first item of a run stores at `dest`, or would give up there. -/
theorem store_mem_itemsAt {src : ℕ → UInt8} {srcend dest destend : ℕ} (k ctrl : ℕ) {s : Decoder}
    (hsp : s.sp < srcend) (hdp : s.dp = dest) (hmapped : 4096 ≤ dest)
    (hend : dest+273 ≤ destend) (htop : destend < 2^64) (hdest : ¬ Unmapped dest) :
    .store dest ∈ (leftState (itemsAt src srcend dest destend (k+1) ctrl s)).log := by
  obtain ⟨hlen,hoff⟩ := readTag_bounds src s
  have hthree := le_readTag_len src s
  rw [itemsAt,if_pos hsp]
  by_cases hbit : ctrl &&& 1 ≠ 0
  · obtain ⟨n,hn⟩ : ∃ n, (readTag src s).1.1 = n+1 := ⟨(readTag src s).1.1-1,by omega⟩
    have hto := wrap_of_lt (a := ((readTag src s).2.dp : ℤ)+(readTag src s).1.1)
      (by omega) (by rw [readTag_dp]; omega)
    have hback := wrap_of_lt (a := ((readTag src s).2.dp : ℤ)-(readTag src s).1.2)
      (by rw [readTag_dp]; omega) (by rw [readTag_dp]; omega)
    simp only [if_pos hbit]
    rw [if_neg (by rw [readTag_dp,hdp] at hto ⊢; omega),hn,copyTagAt]
    refine (Before.bind _ fun t => .itemsAt src srcend dest destend k _ t).log.subset ?_
    split
    · -- only the offset 0 does not point before the output
      rename_i hle
      have hfrom : wrap (((readTag src s).2.dp : ℤ)-(readTag src s).1.2) = dest := by
        rw [readTag_dp,hdp] at hback hle ⊢
        omega
      rw [hfrom,Decoder.load,if_neg hdest,readTag_dp,hdp]
      exact (Before.store dest _ _ fun t => (Before.advance 1 t).trans (.copyTagAt dest _ n _)).log.subset
        (List.mem_cons_self ..)
    · refine (Before.store dest _ _ fun t => ?_).log.subset (List.mem_cons_self ..)
      exact (Before.access _ t).trans (.store _ _ t Before.refl)
  · simp only [if_neg hbit]
    rw [hdp,if_neg (by omega)]
    exact (Before.store dest _ _ fun t => (Before.advance 1 t).trans
      (.itemsAt src srcend dest destend k _ _)).log.subset (List.mem_cons_self ..)

/-- For every source memory, every header and every address, the decoder ends through the
conditions of its own loops, or it gives up or is killed. Its stores lie inside the output
if and only if the end of the output does not wrap, or there is no item in the input, or the
first item of a run on NULL is a tag. -/
theorem pglzDecompressAt_within_iff (source : ℕ → UInt8) (d : Destination (int32 (le32 source 4)))
    (memory : ℕ → UInt8) :
    let srcend := varsize (le32 source 0)
    let rawsize := int32 (le32 source 4)
    let destend := wrap (d.dest+rawsize)
    let run := pglzDecompressAt source d.dest memory
    (∀ k, decodeAt source srcend d.dest destend (srcend+k) (.startAt d.dest memory) =
      decodeAt source srcend d.dest destend srcend (.startAt d.dest memory)) ∧
    (∀ s, decodeAt source srcend d.dest destend srcend (.startAt d.dest memory) = .ok s →
      ¬ (s.sp < srcend ∧ s.dp < destend)) ∧
    (StoresInside d.dest rawsize memory run.state ↔
      ¬ (d.dest+rawsize < 0 ∧ 9 < srcend ∧ (d.dest = 0 → (source 8).toNat &&& 1 = 0))) := by
  intro srcend rawsize destend run
  have hsrc : srcend ≤ (Decoder.startAt d.dest memory).sp+srcend := Nat.le_add_left _ _
  refine ⟨decodeAt_fuel srcend _ hsrc,fun s => decodeAt_exits srcend _ s hsrc,?_⟩
  by_cases hshort : srcend ≤ 9
  · exact iff_of_true (storesInside_of_short hshort d.dest rawsize memory) fun h => by omega
  by_cases hstart : 0 ≤ (d.dest : ℤ)+rawsize
  · have hmapped : 4096 ≤ d.dest := by
      have := d.mapped
      omega
    exact iff_of_true (storesInside_of_area ⟨hmapped,hstart,d.room⟩ memory) fun h => by omega
  have hroom := d.room
  obtain ⟨hlow,hwrap,hend⟩ : d.dest < 2^31 ∧ destend < 2^64 ∧ d.dest+273 ≤ destend := by
    have hmin := int32_bounds (le32 source 4)
    simp only [destend,rawsize,wrap] at hstart ⊢
    omega
  rcases d.mapped with ⟨hnull,hraw⟩ | hmapped
  · have hrun : run = ⟨.killed,((Decoder.startAt 0 memory).fetch source).2.killedAt source
        (source 8).toNat⟩ := by
      have h := @pglzDecompressAt_null source (by omega) memory
      dsimp only at h
      rw [if_pos (show 9 < varsize (le32 source 0) by omega)] at h
      rw [← h,← hnull]
    rw [hrun,hnull]
    by_cases hbit : (source 8).toNat &&& 1 ≠ 0
    · refine iff_of_true ?_ fun h => hbit (h.2.2 rfl)
      rw [Decoder.killedAt,if_pos hbit]
      refine storesInside_of_noStore (fun a ha => ?_) (readTag_dest source _)
      have hstart := (List.mem_cons.mp ha).resolve_left (by simp)
      rw [store_mem_readTag] at hstart
      exact not_mem_startAt a 0 memory ((List.mem_cons.mp hstart).resolve_left (by simp))
    · refine iff_of_false (fun h => ?_) (not_not.mpr ⟨by omega,by omega,fun _ => not_not.mp hbit⟩)
      rw [Decoder.killedAt,if_neg hbit] at h
      have := h.store 0 (List.mem_cons_self ..)
      omega
  · refine iff_of_false (fun h => ?_) (not_not.mpr ⟨by omega,by omega,fun h => by omega⟩)
    have hmem : .store d.dest ∈ run.state.log := by
      have hstate : run.state = _ := pglzDecompressAt_state source d.dest memory
      rw [hstate,decodeAt_first (by omega) (show d.dest < destend by omega)]
      refine (Before.bind _ fun t => .decodeAt source srcend d.dest destend _ t).log.subset ?_
      exact store_mem_itemsAt 7 _ (by simp only [Decoder.startAt,Decoder.fetch]; omega) rfl hmapped
        hend hwrap (by simp only [Unmapped]; omega)
    have := h.store d.dest hmem
    omega

def nullDatum : ℕ → UInt8 := fun i => [160,0,0,0,0,0xfc,0xff,0xff,0,0x61,0x62].getD i 0

theorem not_within_nullDatum :
    int32 (le32 nullDatum 4) = -1024 ∧
      (pglzDecompressAt nullDatum 0 fun _ => 0).exit = .killed ∧
      .store 0 ∈ (pglzDecompressAt nullDatum 0 fun _ => 0).state.log ∧
      ¬ StoresInside 0 (int32 (le32 nullDatum 4)) (fun _ => 0)
        (pglzDecompressAt nullDatum 0 fun _ => 0).state := by
  have hraw : int32 (le32 nullDatum 4) = -1024 := rfl
  have hexit : (pglzDecompressAt nullDatum 0 fun _ => 0).exit = .killed := rfl
  have hmem : .store 0 ∈ (pglzDecompressAt nullDatum 0 fun _ => 0).state.log := List.mem_cons_self ..
  refine ⟨hraw,hexit,hmem,fun h => ?_⟩
  have := h.store 0 hmem
  omega

end PageDumper
