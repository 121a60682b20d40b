import PageDumper.ToastPointer

/-! Sequences of `fetch_data` calls on one `ToastMap`. The calls share the stream of the
map, nobody looks at its state between them, and nobody clears it. -/
namespace PageDumper
open Memory Words Reader RowTable

def Fetch.aborted (r : Fetch) : Bool :=
  match r.outcome with
  | .error .abort | .error .killed => true
  | _ => false

structure Call where
  pointer : ToastPointer
  heap : Heap

/-- The map after a sequence of calls none of which aborted; exceptions are survived. -/
def fetchAll : ToastMap → List Call → Option ToastMap
  | toast, [] => some toast
  | toast, c::calls =>
    let r := c.pointer.fetchData toast c.heap
    if r.aborted then none else fetchAll { toast with file := r.stream } calls

/-- The value of the call is not recorded, or all its chunk ranges lie inside the file. -/
def Harmless (f : File UInt8) (positions : Positions) (c : Call) : Prop :=
  ∀ datas, positions c.pointer.pointer.vaValueid = some datas → f.Covers (ranges datas)

theorem fetchData_stream {p : ToastPointer} {toast : ToastMap} {heap : Heap} {datas : List ChunkPos}
    (h : toast.positions p.pointer.vaValueid = some datas)
    (ha : (p.fetchData toast heap).aborted = false) :
    (p.fetchData toast heap).stream = (toast.file.gather 0 (ranges datas)).2 := by
  rcases Nat.lt_or_ge (4+payloadSize datas) (2^32) with hfit | hfit
  · cases hc : p.isCompressed with
    | false => rw [fetchData_plain h hfit hc]
    | true => rw [fetchData_compressed h hfit hc]
  · rw [fetchData_overflow h hfit] at ha
    simp [Fetch.aborted] at ha

theorem fetchData_assembled {p : ToastPointer} {toast : ToastMap} {heap : Heap}
    {datas : List ChunkPos} (h : toast.positions p.pointer.vaValueid = some datas) :
    (p.fetchData toast heap).assembled =
      if 4+payloadSize datas < 2^32 then (toast.file.gather 0 (ranges datas)).1 else [] := by
  split
  · rename_i hfit
    cases hc : p.isCompressed with
    | false => rw [fetchData_plain h hfit hc]
    | true => rw [fetchData_compressed h hfit hc]
  · rename_i hfit
    rw [fetchData_overflow h (by omega)]

/-- One call keeps the file and leaves a working stream exactly if it was harmless. -/
theorem fetchData_step {toast : ToastMap} {c : Call}
    (ha : (c.pointer.fetchData toast c.heap).aborted = false) (hs : toast.file.failbit = false) :
    (c.pointer.fetchData toast c.heap).stream.file = toast.file.file ∧
      ((c.pointer.fetchData toast c.heap).stream.failbit = false ↔
        Harmless toast.file.file toast.positions c) := by
  cases h : toast.positions c.pointer.pointer.vaValueid with
  | none =>
    rw [fetchData_unknown h]
    refine ⟨rfl,⟨fun _ datas hd => ?_,fun _ => hs⟩⟩
    rw [h] at hd
    cases hd
  | some datas =>
    have hiff : Harmless toast.file.file toast.positions c ↔ toast.file.file.Covers (ranges datas) := by
      simp [Harmless,h]
    rw [fetchData_stream h ha,gather_failbit 0 hs,hiff]
    exact ⟨gather_file _ _ _,by simp⟩

theorem fetchData_failed {toast : ToastMap} {c : Call}
    (ha : (c.pointer.fetchData toast c.heap).aborted = false) (hs : toast.file.failbit = true) :
    (c.pointer.fetchData toast c.heap).stream.file = toast.file.file ∧
      (c.pointer.fetchData toast c.heap).stream.failbit = true := by
  cases h : toast.positions c.pointer.pointer.vaValueid with
  | none =>
    rw [fetchData_unknown h]
    exact ⟨rfl,hs⟩
  | some datas =>
    rw [fetchData_stream h ha]
    exact ⟨gather_file _ _ _,(gather_of_fail 0 hs _).2⟩

/-- Over a whole history the map and the file stay the same, and the stream still works
at the end exactly if it did at the start and every call was harmless. -/
theorem fetchAll_invariant {toast after : ToastMap} {calls : List Call}
    (h : fetchAll toast calls = some after) :
    after.positions = toast.positions ∧ after.file.file = toast.file.file ∧
      (after.file.failbit = false ↔ toast.file.failbit = false ∧
        ∀ c ∈ calls, Harmless toast.file.file toast.positions c) := by
  induction calls generalizing toast with
  | nil =>
    cases h
    simp
  | cons c calls ih =>
    simp only [fetchAll] at h
    split at h
    · cases h
    · rename_i ha
      simp only [Bool.not_eq_true] at ha
      obtain ⟨hpos,hfile,hiff⟩ := ih h
      cases hs : toast.file.failbit with
      | false =>
        obtain ⟨hf,hstep⟩ := fetchData_step ha hs
        rw [hf] at hfile hiff
        refine ⟨hpos,hfile,?_⟩
        rw [hiff,hstep]
        simp
      | true =>
        obtain ⟨hf,hstep⟩ := fetchData_failed ha hs
        rw [hf] at hfile
        refine ⟨hpos,hfile,?_⟩
        rw [hiff,hstep]
        simp

/-- After `fill_toast_map` and any history of calls that did not abort the process, a call
for a value whose ranges all lie inside the file assembles exactly the file's bytes at these
ranges if and only if the value fits the fetch buffer and either every earlier call was
harmless too or the bytes asked for happen to be zero. -/
theorem fetchData_history_iff {f : File UInt8} {buffer : ℕ → UInt8} {toast after : ToastMap}
    (hfill : fillToastMap buffer ⟨fun _ => none,.opened f⟩ = .ok toast) {calls : List Call}
    (hcalls : fetchAll toast calls = some after) (p : ToastPointer) (heap : Heap)
    {datas : List ChunkPos} (hrow : toast.positions p.pointer.vaValueid = some datas)
    (hcov : f.Covers (ranges datas)) :
    (p.fetchData after heap).assembled = f.extract (ranges datas) ↔
      4+payloadSize datas < 2^32 ∧
        ((∀ c ∈ calls, Harmless f toast.positions c) ∨ ∀ b ∈ f.extract (ranges datas), b = 0) := by
  obtain ⟨hfile,hgood⟩ := fillToastMap_stream hfill
  obtain ⟨hpos,hafter,hiff⟩ := fetchAll_invariant hcalls
  rw [hfile] at hafter hiff
  simp only [Stream.opened,hgood,true_and] at hafter hiff
  have hlen : (f.extract (ranges datas)).length = payloadSize datas := by
    rw [length_extract,sum_ranges]
  rw [fetchData_assembled (by rw [hpos]; exact hrow)]
  split
  · rename_i hfit
    rw [← hiff]
    simp only [hfit,true_and]
    cases hs : after.file.failbit with
    | false =>
      rw [gather_covered 0 hs (by rw [hafter]; exact hcov),hafter]
      simp
    | true =>
      rw [(gather_of_fail 0 hs _).1,sum_ranges,eq_comm,List.eq_replicate_iff]
      simp [hlen]
  · rename_i hfit
    have hne : f.extract (ranges datas) ≠ [] := by
      intro he
      rw [he,List.length_nil] at hlen
      omega
    exact iff_of_false hne.symm fun h => hfit h.1

/-- A toast table of one page with two values: the recorded range of the first, from byte
8156 to byte 8196, leaves the file; the second is the two bytes `ab`. -/
def poisonFile : File UInt8 where
  size := 8192
  byte i := (([(12,32),(24,0xb8),(25,0x9f),(26,0x80),(28,0x40),(29,0x9f),(30,0x80),
    (8022,24),(8024,2),(8032,7),(8033,0x61),(8034,0x62),
    (8142,24),(8144,1),(8152,0xb0)] : List (ℕ × UInt8)).lookup i).getD 0

def poisonCall : Call := ⟨.ofExternal ⟨44,40,1,0⟩,fun _ => 0,fun _ => 0⟩

def goodPointer : ToastPointer := .ofExternal ⟨6,2,2,0⟩

def mixedCalls : List Call := [⟨goodPointer,fun _ => 0,fun _ => 0⟩,poisonCall]

theorem fillToastMap_poisonFile :
    (fillToastMap (fun _ => 0) ⟨fun _ => none,.opened poisonFile⟩).map
      (fun toast => (toast.positions 1,toast.positions 2)) =
    .ok (some [⟨8156,40⟩],some [⟨8033,2⟩]) := by
  rfl

theorem exists_poisonMap : ∃ toast,
    fillToastMap (fun _ => 0) ⟨fun _ => none,.opened poisonFile⟩ = .ok toast ∧
      toast.positions 1 = some [⟨8156,40⟩] ∧ toast.positions 2 = some [⟨8033,2⟩] := by
  have h := fillToastMap_poisonFile
  cases hfill : fillToastMap (fun _ => 0) ⟨fun _ => none,.opened poisonFile⟩ with
  | error e => simp [hfill,Except.map] at h
  | ok toast =>
    simp only [hfill,Except.map,Except.ok.injEq,Prod.mk.injEq] at h
    exact ⟨toast,rfl,h⟩

theorem fetchData_history_poisonFile : ∃ toast after,
    fillToastMap (fun _ => 0) ⟨fun _ => none,.opened poisonFile⟩ = .ok toast ∧
      fetchAll toast mixedCalls = some after ∧
      ((goodPointer.fetchData after ⟨fun _ => 0,fun _ => 0⟩).assembled =
          poisonFile.extract (ranges [⟨8033,2⟩]) ↔
        4+payloadSize [⟨8033,2⟩] < 2^32 ∧ ((∀ c ∈ mixedCalls, Harmless poisonFile toast.positions c) ∨
          ∀ b ∈ poisonFile.extract (ranges [⟨8033,2⟩]), b = 0)) := by
  have hrun : (fillToastMap (fun _ => 0) ⟨fun _ => none,.opened poisonFile⟩).map
      (fun toast => (fetchAll toast mixedCalls).isSome) = .ok true := rfl
  obtain ⟨toast,hfill,-,hgood⟩ := exists_poisonMap
  simp only [hfill,Except.map,Except.ok.injEq,Option.isSome_iff_exists] at hrun
  obtain ⟨after,hafter⟩ := hrun
  exact ⟨toast,after,hfill,hafter,fetchData_history_iff hfill hafter goodPointer _ hgood (by decide)⟩

/-- After the call for the first value, the second one comes back as zeros. -/
theorem not_isolated_poisonFile : ∃ toast after,
    fillToastMap (fun _ => 0) ⟨fun _ => none,.opened poisonFile⟩ = .ok toast ∧
      fetchAll toast [poisonCall] = some after ∧
      toast.positions goodPointer.pointer.vaValueid = some [⟨8033,2⟩] ∧
      poisonFile.Covers (ranges [⟨8033,2⟩]) ∧
      poisonFile.extract (ranges [⟨8033,2⟩]) = [0x61,0x62] ∧
      (goodPointer.fetchData after ⟨fun _ => 0,fun _ => 0⟩).assembled = [0,0] := by
  have hrun : (fillToastMap (fun _ => 0) ⟨fun _ => none,.opened poisonFile⟩).map
      (fun toast => (fetchAll toast [poisonCall]).map fun after =>
        (goodPointer.fetchData after ⟨fun _ => 0,fun _ => 0⟩).assembled) = .ok (some [0,0]) := rfl
  obtain ⟨toast,hfill,-,hgood⟩ := exists_poisonMap
  simp only [hfill,Except.map,Except.ok.injEq,Option.map_eq_some_iff] at hrun
  obtain ⟨after,hafter,hzero⟩ := hrun
  exact ⟨toast,after,hfill,hafter,hgood,by decide,rfl,hzero⟩

end PageDumper
