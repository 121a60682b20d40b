import PageDumper.SampleRun

/-! How a run of `table_sample` can end, whatever bytes the two files have. Exit codes are thrown by
the set-up alone, so that a run either stops before it has written a row or writes the whole
script, and every row of the script is read by an SQL lexer as a list of eleven tokens. -/
namespace PageDumper
open Memory Words Reader RowTable Grouping SqlText

/-! ### Who throws exit codes -/

def NoExit {α : Type} (x : Except Stop α) : Prop := ∀ retcode, x ≠ .error (.throwInt retcode)

section NoExit

variable {α β : Type}

theorem noExit_ok (a : α) : NoExit (.ok a : Except Stop α) := fun _ h => by cases h

theorem noExit_abort : NoExit (.error .abort : Except Stop α) := fun _ h => by cases h

theorem noExit_killed : NoExit (.error .killed : Except Stop α) := fun _ h => by cases h

theorem noExit_throw (e : Exception) : NoExit (.error (.throw e) : Except Stop α) := fun _ h => by cases h

theorem noExit_assertion (cond : Prop) [Decidable cond] : NoExit (assertion cond) := by
  rw [assertion]
  split
  · exact noExit_ok ()
  · exact noExit_abort

theorem NoExit.bind {x : Except Stop α} {f : α → Except Stop β} (hx : NoExit x) (hf : ∀ a, NoExit (f a)) :
    NoExit (x >>= f) := by
  cases x with
  | error e =>
    intro retcode h
    cases h
    exact hx retcode rfl
  | ok a => exact hf a

theorem ok_of_bind {x : Except Stop α} {f : α → Except Stop β} {b : β} (h : x >>= f = .ok b) :
    ∃ a, x = .ok a ∧ f a = .ok b := by
  cases x with
  | error e => cases h
  | ok a => exact ⟨a,rfl,h⟩

theorem noExit_foldlM {f : β → α → Except Stop β} (hf : ∀ b a, NoExit (f b a)) (as : List α) (b : β) :
    NoExit (as.foldlM f b) := by
  induction as generalizing b with
  | nil => exact noExit_ok b
  | cons a as ih => exact (hf b a).bind ih

theorem noExit_forLinp {page : ℕ → UInt8} {body : α → ℕ → Except Stop α}
    (hbody : ∀ a i, NoExit (body a i)) (a : α) : NoExit (forLinp page body a) := by
  refine NoExit.bind ?_ fun n => noExit_foldlM hbody _ _
  exact (noExit_assertion _).bind fun _ => noExit_ok _

end NoExit

theorem noExit_recordChunk (positions : Positions) (chunkId chunkSeq : UInt32) (c : ChunkPos) :
    NoExit (recordChunk positions chunkId chunkSeq c) := by
  rw [recordChunk]
  split_ifs
  all_goals first | exact noExit_ok _ | exact fun _ h => by cases h

theorem noExit_fillItem (page : ℕ → UInt8) (pagePos : UInt32) (positions : Positions) (i : ℕ) :
    NoExit (fillItem page pagePos positions i) := by
  cases hadm : (pdLinp page i).admitted with
  | false =>
    rw [fillItem_of_not_admitted hadm]
    exact noExit_ok _
  | true =>
    rw [fillItem_of_admitted hadm]
    split
    · exact noExit_recordChunk _ _ _ _
    · exact noExit_abort

theorem noExit_fillPages (fuel : ℕ) (it : PageIterator) (buffer : ℕ → UInt8) (pagePos : UInt32)
    (positions : Positions) : NoExit (fillPages fuel it buffer pagePos positions) := by
  induction fuel generalizing it buffer pagePos positions with
  | zero => exact noExit_ok _
  | succ fuel ih =>
    rw [fillPages]
    split
    · exact noExit_ok _
    · exact (noExit_forLinp (noExit_fillItem _ _) _).bind fun _ => ih _ _ _ _

theorem noExit_fillToastMap (buffer : ℕ → UInt8) (toast : ToastMap) :
    NoExit (fillToastMap buffer toast) := by
  have hmake : NoExit (PageIterator.make toast.file) := by
    refine (noExit_assertion _).bind fun _ => ?_
    dsimp only
    split
    · exact noExit_throw _
    · exact noExit_ok _
  exact hmake.bind fun it => (noExit_fillPages _ _ _ _ _).bind fun _ => noExit_ok _

theorem noExit_decompressValue (vaRawsize : UInt32) (result behind : ℕ → UInt8) :
    NoExit (decompressValue vaRawsize result behind).outcome := by
  simp only [decompressValue]
  split_ifs
  · exact noExit_throw _
  · exact noExit_killed
  · exact noExit_abort
  · exact noExit_throw _
  · exact noExit_throw _
  · exact noExit_ok _
  · exact noExit_ok _

theorem noExit_fetchData (p : ToastPointer) (toast : ToastMap) (heap : Heap) :
    NoExit (p.fetchData toast heap).outcome := by
  cases h : toast.positions p.pointer.vaValueid with
  | none =>
    rw [fetchData_unknown h]
    exact noExit_throw _
  | some datas =>
    rcases Nat.lt_or_ge (4+payloadSize datas) (2^32) with hfit | hfit
    · cases hc : p.isCompressed with
      | false =>
        rw [fetchData_plain h hfit hc]
        exact noExit_ok _
      | true =>
        have hd := noExit_decompressValue p.pointer.vaRawsize
          (fetched (toast.file.gather 0 (ranges datas)).1 heap.result) heap.decompressed
        rw [fetchData_compressed h hfit hc]
        simpa only using hd
    · rw [fetchData_overflow h hfit]
      exact noExit_abort

def RendersNoExit {α : Type} (x : Render α) : Prop := ∀ σ, NoExit (x.run.run σ).1

theorem RendersNoExit.bind {α β : Type} {x : Render α} {f : α → Render β} (hx : RendersNoExit x)
    (hf : ∀ a, RendersNoExit (f a)) : RendersNoExit (x >>= f) := by
  intro σ
  have h := hx σ
  rw [ExceptT.run_bind,StateT.run_bind]
  cases hr : x.run.run σ with
  | mk r σ₁ =>
    rw [hr] at h
    cases r with
    | error e =>
      intro retcode he
      cases he
      exact h retcode rfl
    | ok a => exact hf a σ₁

theorem rendersNoExit_pure {α : Type} (a : α) : RendersNoExit (pure a) := fun _ => noExit_ok a

theorem rendersNoExit_buildBytes (v : Varlena) (heap : Heap) : RendersNoExit (v.buildBytes heap) := by
  rw [Varlena.buildBytes]
  split
  · exact rendersNoExit_pure _
  · intro σ
    cases σ with
    | none => exact noExit_ok _
    | some toast =>
      rw [fetchToast_run]
      exact noExit_fetchData _ _ _
  · exact rendersNoExit_pure _
  · exact rendersNoExit_pure _

theorem rendersNoExit_sqlVarlena (varlena : Option Varlena) (heap : Heap) :
    RendersNoExit (sqlVarlena varlena heap) := by
  cases varlena with
  | none => exact rendersNoExit_pure _
  | some v => exact (rendersNoExit_buildBytes v heap).bind fun _ => rendersNoExit_pure _

theorem rendersNoExit_sqlRow (c : UserCall) (w : Walk) : RendersNoExit (sqlRow c w) :=
  (rendersNoExit_sqlVarlena _ _).bind fun _ => (rendersNoExit_sqlVarlena _ _).bind fun _ =>
    (rendersNoExit_sqlVarlena _ _).bind fun _ => (rendersNoExit_sqlVarlena _ _).bind fun _ =>
    (rendersNoExit_sqlVarlena _ _).bind fun _ => (rendersNoExit_sqlVarlena _ _).bind fun _ =>
    (rendersNoExit_sqlVarlena _ _).bind fun _ => rendersNoExit_pure _

theorem noExit_userCode (g : Globals) (c : UserCall) : NoExit (userCode g c) := by
  have hwalk : NoExit (walk c.itemheader c.itemdata) :=
    (noExit_assertion _).bind fun _ => (noExit_assertion _).bind fun _ => noExit_ok _
  refine hwalk.bind fun w => ?_
  have hrow := rendersNoExit_sqlRow c w (some g.toastmap)
  dsimp only
  split
  · exact (noExit_assertion _).bind fun _ => noExit_ok _
  · exact noExit_ok _
  · rename_i e he
    intro retcode h
    cases h
    exact hrow retcode he

/-! ### The loops of `main` -/

section Loops

variable {σ : Type} {user : UserCode σ} {I : σ → Prop}

theorem noExit_mainLoop (hcode : ∀ s itemid itemheader itemdata, NoExit (user.code s itemid itemheader itemdata))
    (n : ℕ) (whichPage : UInt32) (input : Stream UInt8) (buffer : ℕ → UInt8) (s : σ) :
    NoExit (mainLoop user n whichPage input buffer s) := by
  induction n generalizing whichPage input buffer s with
  | zero => exact noExit_ok s
  | succ n ih =>
    refine NoExit.bind (noExit_forLinp (fun s i => ?_) s) fun s => ih _ _ _ _
    rw [mainItem]
    split
    · exact hcode _ _ _ _
    · exact noExit_ok _

theorem mainLoop_preserves (hcode : ∀ s itemid itemheader itemdata s', I s →
      user.code s itemid itemheader itemdata = .ok s' → I s')
    (n : ℕ) (whichPage : UInt32) (input : Stream UInt8) (buffer : ℕ → UInt8) {s s' : σ} (hs : I s)
    (h : mainLoop user n whichPage input buffer s = .ok s') : I s' := by
  induction n generalizing whichPage input buffer s with
  | zero =>
    cases h
    exact hs
  | succ n ih =>
    rw [mainLoop] at h
    obtain ⟨s₁,hloop,h⟩ := ok_of_bind h
    refine ih _ _ _ (forLinp_preserves (fun i s s' hI hok => ?_) hs hloop) h
    rw [mainItem] at hok
    split at hok
    · exact hcode _ _ _ _ _ hI hok
    · cases hok
      exact hI

theorem main_cases (user : UserCode σ) (argc : ℕ) (input : Stream UInt8) (buffer : ℕ → UInt8) :
    main user argc input buffer = .ok (1,none) ∨ main user argc input buffer = .error .abort ∨
      ∃ n input', main user argc input buffer = mainTry do
        let s ← user.setup argc
        let s ← mainLoop user n 0 input' buffer s
        return user.finish s := by
  by_cases hargc : argc < 2
  · exact .inl (by rw [main,if_pos hargc]; rfl)
  · cases hbad : input.failbit with
    | true => exact .inr (.inl (by simp [main,hargc,assertion,hbad,bind,Except.bind]))
    | false =>
      simp only [main,hargc,if_false,assertion,hbad,if_true,bind,Except.bind]
      split_ifs
      · exact .inl rfl
      · exact .inl rfl
      · exact .inr (.inr ⟨_,_,rfl⟩)

theorem main_exit {argc : ℕ} (hsetup : ∀ s, user.setup argc = .ok s → I s)
    (hretcode : ∀ retcode, user.setup argc = .error (.throwInt retcode) → retcode = 1)
    (hnoexit : ∀ s itemid itemheader itemdata, NoExit (user.code s itemid itemheader itemdata))
    (hcode : ∀ s itemid itemheader itemdata s', I s →
      user.code s itemid itemheader itemdata = .ok s' → I s')
    {input : Stream UInt8} {buffer : ℕ → UInt8} {retcode : ℤ} {final : Option σ}
    (h : main user argc input buffer = .ok (retcode,final)) :
    (retcode = 1 ∧ final = none) ∨ (retcode = 0 ∧ ∃ s, I s ∧ final = some (user.finish s)) := by
  rcases main_cases user argc input buffer with hmain | hmain | ⟨n,input',hmain⟩
  · rw [hmain] at h
    cases h
    exact .inl ⟨rfl,rfl⟩
  · rw [hmain] at h
    cases h
  · rw [hmain] at h
    cases hs : user.setup argc with
    | error e =>
      rw [hs] at h
      cases e with
      | throwInt r =>
        cases h
        exact .inl ⟨hretcode _ hs,rfl⟩
      | _ => cases h
    | ok s =>
      rw [hs] at h
      change mainTry (mainLoop user n 0 input' buffer s >>= _) = _ at h
      have hloop := noExit_mainLoop hnoexit n 0 input' buffer s
      cases hrun : mainLoop user n 0 input' buffer s with
      | error e =>
        rw [hrun] at h hloop
        cases e with
        | throwInt r => exact absurd rfl (hloop r)
        | _ => cases h
      | ok s₁ =>
        rw [hrun] at h
        cases h
        exact .inr ⟨rfl,s₁,mainLoop_preserves hcode n 0 input' buffer (hsetup s hs) hrun,rfl⟩

end Loops

/-! ### The script of any run -/

/-- An SQL lexer reads the row as ten values and one word in parentheses. -/
def ElevenTokens (row : List UInt8) : Prop :=
  ∃ (vs : List SqlValue) (point : Bool), vs.length = 10 ∧
    lex row = some (tupleTokens (vs.map SqlValue.token ++ [.word (pointText point)]))

/-- After so many calls of the user code the output is the opened transaction and some rows, each of
which is eleven tokens. The row counter is an `unsigned`. -/
structure Wrote (calls : ℕ) (g : Globals) (rows : List (List UInt8)) : Prop where
  tokens : ∀ row ∈ rows, ElevenTokens row
  length_le : rows.length ≤ calls
  count : calls < 2^32 → g.insertionCount.toNat = rows.length
  stdout : calls < 2^32 → g.stdout = bytesFrom "BEGIN;\n" ++
    emit 500 (sqlInsert ++ bytesFrom "\n") (bytesFrom ",\n") (bytesFrom ";\n") 0 rows

theorem Wrote.userCode {calls : ℕ} {g g' : Globals} {c : UserCall} {rows : List (List UInt8)}
    (h : Wrote calls g rows) (hok : userCode g c = .ok g') : ∃ rows', Wrote (calls+1) g' rows' := by
  have hle := h.length_le
  rcases userCode_cases hok with ⟨row,hrow,hstdout,hcount⟩ | ⟨e,-,hstdout,hcount⟩
  · refine ⟨rows ++ [row],?_,?_,fun hlt => ?_,fun hlt => ?_⟩
    · rw [List.forall_mem_append,List.forall_mem_singleton]
      obtain ⟨vs,point,hlen,hlex,-,-⟩ := lex_row hrow
      have hpoint : sqlGeometric point = pointText point.isSome := by cases point <;> rfl
      rw [hpoint] at hlex
      exact ⟨h.tokens,vs,point.isSome,hlen,hlex⟩
    · rw [List.length_append,List.length_singleton]
      omega
    · have hn := h.count (by omega)
      rw [hcount,toNat_add_one (by omega),hn,List.length_append,List.length_singleton]
    · have hn := h.count (by omega)
      rw [hstdout,h.stdout (by omega),rowLead_eq,hn,emit_append,Nat.zero_add,emit,emit]
      simp only [List.append_assoc,List.append_nil]
  · exact ⟨rows,h.tokens,by omega,fun hlt => by rw [hcount,h.count (by omega)],
      fun hlt => by rw [hstdout,h.stdout (by omega)]⟩

section Sample

variable {toastBuffer : ℕ → UInt8} {toastFile : Stream UInt8} {heap : ℕ → ℕ → Heap}

theorem wrote_setup {argc : ℕ} {s : ℕ × Globals}
    (h : (tableSample toastBuffer toastFile heap).setup argc = .ok s) : Wrote s.1 s.2 [] := by
  obtain ⟨g,hg,hs⟩ := ok_of_bind h
  cases hs
  rw [userCodeSetup] at hg
  split_ifs at hg
  obtain ⟨toastmap,-,hg⟩ := ok_of_bind hg
  cases hg
  exact ⟨by simp,Nat.le_refl _,fun _ => rfl,fun _ => (List.append_nil _).symm⟩

theorem retcode_setup {argc : ℕ} {retcode : ℤ}
    (h : (tableSample toastBuffer toastFile heap).setup argc = .error (.throwInt retcode)) :
    retcode = 1 := by
  simp only [tableSample,userCodeSetup,bind,Except.bind] at h
  split_ifs at h
  · cases h
    rfl
  · have hexit := noExit_fillToastMap toastBuffer ⟨fun _ => none,toastFile⟩
    cases hfill : fillToastMap toastBuffer ⟨fun _ => none,toastFile⟩ with
    | error e =>
      rw [hfill] at h hexit
      cases h
      exact absurd rfl (hexit retcode)
    | ok toastmap =>
      rw [hfill] at h
      cases h

theorem wrote_code {s s' : ℕ × Globals} {itemid : ItemIdData} {itemheader : ItemHeader}
    {itemdata : ItemData} {rows : List (List UInt8)} (hw : Wrote s.1 s.2 rows)
    (h : (tableSample toastBuffer toastFile heap).code s itemid itemheader itemdata = .ok s') :
    ∃ rows', Wrote s'.1 s'.2 rows' := by
  obtain ⟨g,hg,hs⟩ := ok_of_bind h
  cases hs
  exact hw.userCode hg

theorem Wrote.finish {s : ℕ × Globals} {rows : List (List UInt8)} (hw : Wrote s.1 s.2 rows)
    (hlt : s.1 < 2^32) : ((tableSample toastBuffer toastFile heap).finish s).2.stdout =
      bytesFrom "BEGIN;\n" ++ (if rows = [] then bytesFrom ";\n"
        else script 500 (sqlInsert ++ bytesFrom "\n") (bytesFrom ",\n") (bytesFrom ";\n") rows) ++
      bytesFrom "COMMIT;\n" := by
  simp only [tableSample,userCodeFinish,hw.stdout hlt]
  split
  · rename_i hnil
    rw [hnil,emit]
    simp only [List.append_assoc,List.append_nil]
  · rename_i hne
    rw [← emit_eq_script 500 _ _ (bytesFrom ";\n") (by omega) hne]
    simp only [List.append_assoc]

end Sample

/-- Whatever the two files contain, a run of `table_sample` that returns has exit code 1 and no
final state of the user code, or it has exit code 0 and its output is one transaction: statements of
at most 500 rows each, and every row is read by an SQL lexer as a list of ten values and one word, so that no
byte of a file is ever read as anything but part of a value. The first component of the final
state counts the items that the user code has been called for. -/
theorem main_tableSample_exit (toastBuffer : ℕ → UInt8) (toastFile : Stream UInt8) (heap : ℕ → ℕ → Heap)
    (argc : ℕ) (input : Stream UInt8) (buffer : ℕ → UInt8) (retcode : ℤ) (final : Option (ℕ × Globals))
    (h : main (tableSample toastBuffer toastFile heap) argc input buffer = .ok (retcode,final)) :
    (retcode = 1 ∧ final = none) ∨ (retcode = 0 ∧ ∃ s, final = some s ∧ (s.1 < 2^32 →
      ∃ rows : List (List UInt8), rows.length ≤ s.1 ∧ (∀ row ∈ rows, ElevenTokens row) ∧
        s.2.stdout = bytesFrom "BEGIN;\n" ++
          (if rows = [] then bytesFrom ";\n"
            else script 500 (sqlInsert ++ bytesFrom "\n") (bytesFrom ",\n") (bytesFrom ";\n") rows) ++
          bytesFrom "COMMIT;\n")) := by
  have hexit := main_exit (I := fun s => ∃ rows, Wrote s.1 s.2 rows)
    (fun _ hs => ⟨[],wrote_setup hs⟩) (fun _ hr => retcode_setup hr)
    (fun s _ _ _ => (noExit_userCode s.2 _).bind fun g => noExit_ok _)
    (fun _ _ _ _ _ hw hok => hw.elim fun _ hw => wrote_code hw hok) h
  rcases hexit with hone | ⟨hzero,s,⟨rows,hw⟩,rfl⟩
  · exact .inl hone
  · exact .inr ⟨hzero,_,rfl,fun hlt => ⟨rows,hw.length_le,hw.tokens,hw.finish hlt⟩⟩

theorem main_tableSample_exit_tableFile : ∃ retcode final,
    main (tableSample (fun _ => 0) emptyToastFile fun _ _ => ⟨fun _ => 0,fun _ => 0⟩) 3
      (.opened tableFile) (fun _ => 0) = .ok (retcode,final) ∧
    ((retcode = 1 ∧ final = none) ∨ (retcode = 0 ∧ ∃ s, final = some s ∧ (s.1 < 2^32 →
      ∃ rows : List (List UInt8), rows.length ≤ s.1 ∧ (∀ row ∈ rows, ElevenTokens row) ∧
        s.2.stdout = bytesFrom "BEGIN;\n" ++
          (if rows = [] then bytesFrom ";\n"
            else script 500 (sqlInsert ++ bytesFrom "\n") (bytesFrom ",\n") (bytesFrom ";\n") rows) ++
          bytesFrom "COMMIT;\n"))) := by
  have hrun : ∃ s, main (tableSample (fun _ => 0) emptyToastFile fun _ _ => ⟨fun _ => 0,fun _ => 0⟩) 3
      (.opened tableFile) (fun _ => 0) = .ok (0,some s) := ⟨_,rfl⟩
  obtain ⟨s,hs⟩ := hrun
  exact ⟨0,some s,hs,main_tableSample_exit _ _ _ _ _ _ _ _ hs⟩

end PageDumper
