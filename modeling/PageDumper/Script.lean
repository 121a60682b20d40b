import PageDumper.SampleUser

/-! The SQL script written by a whole run of the sample user code. The text in front of a row
depends on nothing but the number of rows written before, so a run emits its rows one by
one, and the emitted text is the script of the rows in groups of 500. -/
namespace PageDumper
open Memory Words Reader Grouping

def renderRow (toastmap : ToastMap) (c : UserCall) : Except Stop (List UInt8) × ToastMap :=
  match walk c.itemheader c.itemdata with
  | .error e => (.error e,toastmap)
  | .ok w =>
    let r := (sqlRow c w).run.run (some toastmap)
    (r.1,r.2.getD toastmap)

/-- The rows that a sequence of calls renders, in call order; a failing call renders none. -/
def renderedRows : ToastMap → List UserCall → List (List UInt8)
  | _, [] => []
  | toastmap, c::calls =>
    let r := renderRow toastmap c
    match r.1 with
    | .ok row => row::renderedRows r.2 calls
    | .error _ => renderedRows r.2 calls

def userCodes (g : Globals) (calls : List UserCall) : Except Stop Globals := calls.foldlM userCode g

theorem userCode_cases {g g' : Globals} {c : UserCall} (h : userCode g c = .ok g') :
    (∃ row, renderRow g.toastmap c = (.ok row,g'.toastmap) ∧
      g'.stdout = g.stdout ++ (rowLead g.insertionCount ++ row) ∧
      g'.insertionCount = g.insertionCount+1) ∨
    (∃ e, renderRow g.toastmap c = (.error (.throw e),g'.toastmap) ∧
      g'.stdout = g.stdout ∧ g'.insertionCount = g.insertionCount) := by
  simp only [userCode,bind,Except.bind] at h
  cases hw : walk c.itemheader c.itemdata with
  | error e => simp [hw] at h
  | ok w =>
    simp only [hw] at h
    cases hr : ((sqlRow c w).run.run (some g.toastmap)).1 with
    | ok row =>
      simp only [hr,assertion] at h
      split at h
      · cases h
      · cases h
        exact .inl ⟨row,by simp only [renderRow,hw,hr],rfl,rfl⟩
    | error e =>
      cases e with
      | throw e =>
        simp only [hr] at h
        cases h
        exact .inr ⟨e,by simp only [renderRow,hw,hr],rfl,rfl⟩
      | _ => simp [hr] at h

theorem rowLead_eq (insertionCount : UInt32) : rowLead insertionCount =
    lead 500 (sqlInsert ++ bytesFrom "\n") (bytesFrom ",\n") (bytesFrom ";\n") insertionCount.toNat := by
  have hmod : insertionCount % 500 = 0 ↔ insertionCount.toNat % 500 = 0 := by
    rw [← UInt32.toNat_inj,UInt32.toNat_mod]
    rfl
  have hzero : insertionCount ≠ 0 ↔ insertionCount.toNat ≠ 0 := by
    rw [Ne,← UInt32.toNat_inj,UInt32.toNat_zero]
  simp only [rowLead,lead,hmod,hzero]

/-- The invariant of a run: the output grows by what the emitter writes for the rendered
rows, and the counter by their number. -/
theorem userCodes_output {g g' : Globals} {calls : List UserCall} (h : userCodes g calls = .ok g')
    (hlt : g.insertionCount.toNat+(renderedRows g.toastmap calls).length < 2^32) :
    g'.stdout = g.stdout ++ emit 500 (sqlInsert ++ bytesFrom "\n") (bytesFrom ",\n") (bytesFrom ";\n")
        g.insertionCount.toNat (renderedRows g.toastmap calls) ∧
      g'.insertionCount.toNat = g.insertionCount.toNat+(renderedRows g.toastmap calls).length := by
  induction calls generalizing g with
  | nil =>
    cases h
    simp [renderedRows,emit]
  | cons c calls ih =>
    simp only [userCodes,List.foldlM_cons,bind,Except.bind] at h
    split at h
    · cases h
    · rename_i g₁ hg₁
      rcases userCode_cases hg₁ with ⟨row,hrow,hout,hcount⟩ | ⟨e,hrow,hout,hcount⟩
      · simp only [renderedRows,hrow,List.length_cons] at hlt ⊢
        have hsucc : g₁.insertionCount.toNat = g.insertionCount.toNat+1 := by
          rw [hcount,toNat_add_one (by omega)]
        obtain ⟨hout',hcount'⟩ := ih h (by omega)
        rw [hsucc] at hout' hcount'
        refine ⟨?_,by omega⟩
        rw [hout',hout,rowLead_eq,emit]
        simp only [List.append_assoc]
      · simp only [renderedRows,hrow] at hlt ⊢
        obtain ⟨hout',hcount'⟩ := ih h (by rw [hcount]; exact hlt)
        rw [hcount] at hout' hcount'
        exact ⟨by rw [hout',hout],hcount'⟩

/-- The text written by the set-up, any sequence of calls and the finish is `BEGIN`, the rows
that the calls rendered in groups of 500, each group one statement, and `COMMIT`. The groups
contain every rendered row once, in call order, and all but the last are full. -/
theorem script_grouped {argc : ℕ} {buffer : ℕ → UInt8} {toastFile : Stream UInt8} {g₀ g : Globals}
    {calls : List UserCall} (hsetup : userCodeSetup argc buffer toastFile = .ok g₀)
    (hrun : userCodes g₀ calls = .ok g) (hone : 1 ≤ (renderedRows g₀.toastmap calls).length)
    (hlt : (renderedRows g₀.toastmap calls).length < 2^32) :
    (userCodeFinish g).stdout = bytesFrom "BEGIN;\n" ++
        script 500 (sqlInsert ++ bytesFrom "\n") (bytesFrom ",\n") (bytesFrom ";\n")
          (renderedRows g₀.toastmap calls) ++
        bytesFrom "COMMIT;\n" ∧
      (groupsOf 500 (renderedRows g₀.toastmap calls)).flatten = renderedRows g₀.toastmap calls ∧
      (∀ rows ∈ groupsOf 500 (renderedRows g₀.toastmap calls), 1 ≤ rows.length ∧ rows.length ≤ 500) ∧
      ∀ rows ∈ (groupsOf 500 (renderedRows g₀.toastmap calls)).dropLast, rows.length = 500 := by
  obtain ⟨hcount,hbegin⟩ : g₀.insertionCount = 0 ∧ g₀.stdout = bytesFrom "BEGIN;\n" := by
    simp only [userCodeSetup,bind,Except.bind] at hsetup
    split at hsetup
    · cases hsetup
    · split at hsetup
      · cases hsetup
      · cases hsetup
        exact ⟨rfl,rfl⟩
  have hne : renderedRows g₀.toastmap calls ≠ [] := List.length_pos_iff.mp hone
  have hout := (userCodes_output hrun (by rw [hcount,UInt32.toNat_zero]; omega)).1
  rw [hcount,UInt32.toNat_zero,hbegin] at hout
  refine ⟨?_,flatten_groupsOf 500 _,fun rows => length_of_mem_groupsOf (by omega),
    fun rows => length_of_mem_dropLast_groupsOf (by omega)⟩
  rw [userCodeFinish,hout,← emit_eq_script 500 _ _ (bytesFrom ";\n") (by omega) hne]
  simp only [List.append_assoc]

def sampleCalls : List UserCall :=
  let row : UserCall := ⟨headerOf 2,shortTuple,fun _ => ⟨fun _ => 0,fun _ => 0⟩⟩
  let toasted := ⟨headerOf 2,⟨headerOf 2,fun i => ([7,0,0,0,1,18] : List UInt8).getD i 0,22⟩,
    fun _ => ⟨fun _ => 0,fun _ => 0⟩⟩
  [row,toasted,row]

def emptyToastFile : Stream UInt8 := .opened ⟨0,fun _ => 0⟩

theorem script_grouped_sample : ∃ g₀ g, userCodeSetup 3 (fun _ => 0) emptyToastFile = .ok g₀ ∧
    userCodes g₀ sampleCalls = .ok g ∧ (renderedRows g₀.toastmap sampleCalls).length = 2 ∧
    (userCodeFinish g).stdout = bytesFrom "BEGIN;\n" ++
      script 500 (sqlInsert ++ bytesFrom "\n") (bytesFrom ",\n") (bytesFrom ";\n")
        (renderedRows g₀.toastmap sampleCalls) ++
      bytesFrom "COMMIT;\n" := by
  have hlen : (renderedRows ⟨fun _ => none,emptyToastFile⟩ sampleCalls).length = 2 := rfl
  have hsetup : userCodeSetup 3 (fun _ => 0) emptyToastFile =
      .ok ⟨⟨fun _ => none,emptyToastFile⟩,0,bytesFrom "BEGIN;\n"⟩ := rfl
  refine ⟨_,_,hsetup,rfl,hlen,?_⟩
  exact (script_grouped hsetup rfl (by rw [hlen]; decide) (by rw [hlen]; decide)).1

end PageDumper
