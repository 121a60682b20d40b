import PageDumper.ToastPointer

/-! Where the assembling loop of `fetch_data` writes. The size of the buffer and the write
position are both sums modulo `2^32`, but the assertion in front of every read compares them
without wrapping, so as long as it holds the position is the true sum. -/
namespace PageDumper
open Memory Words Reader

/-- The loop with a log of its reads into `result`: the position and length of each. -/
def readLoop (size : UInt32) : List ChunkPos → Assembly → List (ℕ × ℕ) × Except Stop Assembly
  | [], a => ([],.ok a)
  | c::datas, a =>
    match readChunk size a c with
    | .error e => ([],.error e)
    | .ok a' =>
      let rest := readLoop size datas a'
      ((a.pos.toNat,c.second.toNat)::rest.1,rest.2)

theorem readLoop_result (size : UInt32) (datas : List ChunkPos) (a : Assembly) :
    (readLoop size datas a).2 = datas.foldlM (readChunk size) a := by
  induction datas generalizing a with
  | nil => rfl
  | cons c datas ih =>
    rw [readLoop,List.foldlM_cons]
    cases hc : readChunk size a c with
    | error e => rfl
    | ok a' => exact ih a'

/-- How the loop ends: with all chunks read, or at the first chunk that does not fit. -/
inductive LoopEnd (size : UInt32) (datas : List ChunkPos) (a : Assembly) : Prop
  | all (a' : Assembly) (result : (readLoop size datas a).2 = .ok a')
      (lengths : (readLoop size datas a).1.map Prod.snd = datas.map fun c => c.second.toNat)
      (pos : a'.pos.toNat = a.pos.toNat+payloadSize datas)
  | stopped (fitting : List ChunkPos) (c : ChunkPos) (rest : List ChunkPos)
      (split : datas = fitting ++ c::rest) (result : (readLoop size datas a).2 = .error .abort)
      (lengths : (readLoop size datas a).1.map Prod.snd = fitting.map fun c => c.second.toNat)
      (misfit : size.toNat < a.pos.toNat+payloadSize fitting+c.second.toNat)

theorem readLoop_end (size : UInt32) (datas : List ChunkPos) (a : Assembly) : LoopEnd size datas a := by
  induction datas generalizing a with
  | nil => exact .all a rfl rfl (by simp [payloadSize])
  | cons c datas ih =>
    rcases readChunk_cases size a c with ⟨a',hc,hpos,-,-⟩ | ⟨hc,hmiss⟩
    · have hloop : readLoop size (c::datas) a =
          ((a.pos.toNat,c.second.toNat)::(readLoop size datas a').1,(readLoop size datas a').2) := by
        rw [readLoop,hc]
      cases ih a' with
      | all a₂ result lengths pos =>
        refine .all a₂ (by rw [hloop]; exact result) (by rw [hloop,List.map_cons,lengths]; rfl) ?_
        rw [pos,hpos,payloadSize_cons,Nat.add_assoc]
      | stopped fitting c₂ rest split result lengths misfit =>
        refine .stopped (c::fitting) c₂ rest (by rw [split]; rfl) (by rw [hloop]; exact result)
          (by rw [hloop,List.map_cons,lengths]; rfl) ?_
        rw [payloadSize_cons]
        omega
    · refine .stopped [] c datas rfl (by rw [readLoop,hc]) (by rw [readLoop,hc]; rfl) ?_
      simpa [payloadSize] using hmiss

theorem readLoop_tiles (size : UInt32) (datas : List ChunkPos) (a : Assembly) :
    (∃ stop, Tiles a.pos.toNat stop (readLoop size datas a).1) ∧
      ∀ t ∈ (readLoop size datas a).1, t.1+t.2 ≤ size.toNat := by
  induction datas generalizing a with
  | nil => exact ⟨⟨_,rfl⟩,by simp [readLoop]⟩
  | cons c datas ih =>
    rcases readChunk_cases size a c with ⟨a',hc,hpos,hfit,-⟩ | ⟨hc,-⟩
    · obtain ⟨⟨stop,ht⟩,hin⟩ := ih a'
      rw [readLoop,hc]
      rw [hpos] at ht
      refine ⟨⟨stop,rfl,ht⟩,fun t htm => ?_⟩
      rcases List.mem_cons.mp htm with rfl | htm
      · exact hfit
      · exact hin t htm
    · rw [readLoop,hc]
      exact ⟨⟨_,rfl⟩,by simp⟩

theorem readLoop_frame (size : UInt32) (datas : List ChunkPos) (a a' : Assembly)
    (h : (readLoop size datas a).2 = .ok a') :
    ∀ i, i < a.pos.toNat ∨ size.toNat ≤ i → a'.result i = a.result i := by
  induction datas generalizing a with
  | nil =>
    cases h
    exact fun _ _ => rfl
  | cons c datas ih =>
    rcases readChunk_cases size a c with ⟨a₁,hc,hpos,hfit,hframe⟩ | ⟨hc,-⟩
    · rw [readLoop,hc] at h
      intro i hi
      rw [ih a₁ h i (by omega)]
      exact hframe i (by omega)
    · rw [readLoop,hc] at h
      cases h

/-- The assembling loop on any row of the map, however often the sum of its lengths wraps. Its
reads into `result` lie inside `[4,size)`, end to end and in order, and nothing else of the
memory is written. If the true total does not fit 32 bits, the assertion inside the loop stops
the run at the first chunk that does not fit the buffer, with exactly the chunks before it
read; and whenever the loop ends, the final assertion holds. -/
theorem readLoop_contained (datas : List ChunkPos) (behind : ℕ → UInt8) (stream : Stream UInt8) :
    let size := fetchSize datas
    let start : Assembly := ⟨freshVector size.toNat behind,stream,4⟩
    let loop := readLoop size datas start
    loop.2 = datas.foldlM (readChunk size) start ∧
    (∀ t ∈ loop.1, 4 ≤ t.1 ∧ t.1+t.2 ≤ size.toNat) ∧
    (∃ stop, Tiles 4 stop loop.1) ∧ (loop.1.Pairwise fun t u => t.1+t.2 ≤ u.1) ∧
    (2^32 ≤ 4+payloadSize datas → loop.2 = .error .abort ∧
      ∃ fitting c rest, datas = fitting ++ c::rest ∧
        loop.1.map Prod.snd = fitting.map (fun c => c.second.toNat) ∧
        size.toNat < 4+payloadSize fitting+c.second.toNat) ∧
    ∀ a, loop.2 = .ok a → a.pos = size ∧
      ∀ i, i < 4 ∨ size.toNat ≤ i → a.result i = start.result i := by
  intro size start loop
  have hsize : size.toNat = (4+payloadSize datas) % 2^32 := toNat_fetchSize datas
  have hstart : start.pos.toNat = 4 := rfl
  obtain ⟨⟨stop,htiles⟩,hin⟩ := readLoop_tiles size datas start
  rw [hstart] at htiles
  refine ⟨readLoop_result size datas start,fun t ht => ⟨(htiles.inside t ht).1,hin t ht⟩,⟨stop,htiles⟩,
    htiles.disjoint,fun hover => ?_,fun a ha => ⟨?_,readLoop_frame size datas start a ha⟩⟩
  · cases readLoop_end size datas start with
    | all a' result lengths pos =>
      -- all chunks fit, so the true sum is at most the size and does not wrap
      have := a'.pos.toNat_lt
      omega
    | stopped fitting c rest split result lengths misfit =>
      exact ⟨result,fitting,c,rest,split,lengths,by rw [hstart] at misfit; exact misfit⟩
  · cases readLoop_end size datas start with
    | all a' result lengths pos =>
      have he : a = a' := Except.ok.inj (ha.symm.trans result)
      have hlt := a'.pos.toNat_lt
      apply UInt32.toNat_inj.mp
      rw [he,pos,hsize,hstart,Nat.mod_eq_of_lt (by omega)]
    | stopped fitting c rest split result lengths misfit =>
      have he := ha.symm.trans result
      cases he

end PageDumper
