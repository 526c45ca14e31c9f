import NtShm.LogRotation
import Mathlib.Data.List.Infix

/-!
# What the log files keep

Every call of `__nt_nt_log` rotates the log when it has become larger than the limit, and
then appends a line.  The calls of all processes are one after the other, as the lock of
the log has it; each process remembers the size that it saw last.
-/

namespace NtShm

/-- The name to which `rotate_log` moves the log. -/
def filenameOld (filename : CString) : CString :=
  filename.append (dotOld.take (maxStringLen - filename.length - 1))

/-- What the system calls of one call do: whether `rename`, `fopen` with `"w"`, `fopen` with
`"a+"` and `open` succeed, and the two lines of a failed rotation. -/
structure LogOutcome where
  renames : Bool
  truncates : Bool
  appends : Bool
  redirects : Bool
  notes : List UInt8

/-- `(nt_uint64_t)CONFIG_LOG_FILE_SIZE * NT_MEBIBYTE`. -/
def logLimit (configLogFileSize : Int) : Nat :=
  (configLogFileSize % 2 ^ 64).toNat * 1048576 % 2 ^ 64

/-- `nt_redirect_stdio(filename)`: the file is there afterwards. -/
def redirectStdio (outcome : LogOutcome) (filename : CString) (files : Files) : Files :=
  if outcome.redirects ∧ files filename.bytes = none then
    Function.update files filename.bytes (some [])
  else files

/-- The part of `rotate_log` that moves a log of this size: the files and `new_size`. -/
def moveLog (outcome : LogOutcome) (filename : CString) (files : Files) (newSize : Nat) :
    Files × Nat :=
  let files := removeFile files (filenameOld filename)
  -- `rename` fails where there is nothing to rename
  match if outcome.renames then files filename.bytes else none with
  | some content =>
      (Function.update (removeFile files filename) (filenameOld filename).bytes (some content), 0)
  | none =>
      if outcome.truncates then
        (Function.update files filename.bytes (some outcome.notes), 0)
      else (files, newSize)

/-- `rotate_log`: the files and `old_size`. -/
def rotateLog (configLogFileSize : Int) (outcome : LogOutcome) (filename : CString)
    (files : Files) (oldSize : Nat) : Files × Nat :=
  match files filename.bytes with
  | none => (redirectStdio outcome filename files, oldSize)
  | some content =>
      let moved :=
        if configLogFileSize ≠ 0 ∧ logLimit configLogFileSize < content.length then
          moveLog outcome filename files content.length
        else (files, content.length)
      (if moved.2 < oldSize then redirectStdio outcome filename moved.1 else moved.1, moved.2)

/-- `__nt_nt_log` with the type `LOG_TYPE_FILE`, of a line as it is formatted. -/
def ntLogFile (configLogFileSize : Int) (outcome : LogOutcome) (filename : CString)
    (files : Files) (oldSize : Nat) (line : List UInt8) : Files × Nat :=
  let rotated :=
    if configLogFileSize ≠ 0 then rotateLog configLogFileSize outcome filename files oldSize
    else (files, oldSize)
  if outcome.appends then
    (Function.update rotated.1 filename.bytes
      (some ((rotated.1 filename.bytes).getD [] ++ line)), rotated.2)
  else rotated

/-- A call by a process: of `__nt_nt_log` with a line, or of `nt_handle_log`. -/
structure LogFileCall where
  process : Nat
  outcome : LogOutcome
  line : Option (List UInt8)

/-- The files, and `old_size` in every process. -/
structure LogFiles where
  files : Files
  oldSize : Nat → Nat

def LogFiles.call (configLogFileSize : Int) (filename : CString) (s : LogFiles)
    (call : LogFileCall) : LogFiles :=
  let oldSize := s.oldSize call.process
  let after := match call.line with
    | some line => ntLogFile configLogFileSize call.outcome filename s.files oldSize line
    | none => rotateLog configLogFileSize call.outcome filename s.files oldSize
  ⟨after.1, Function.update s.oldSize call.process after.2⟩

def LogFiles.run (configLogFileSize : Int) (filename : CString) (s : LogFiles)
    (calls : List LogFileCall) : LogFiles :=
  calls.foldl (LogFiles.call configLogFileSize filename) s

def contentOf (files : Files) (name : CString) : List UInt8 := (files name.bytes).getD []

section Calls

variable {configLogFileSize : Int} {outcome : LogOutcome} {filename : CString} {files : Files}
  {oldSize : Nat} {line : List UInt8}

theorem filenameOld_ne (short : filename.length + 1 < maxStringLen) :
    (filenameOld filename).bytes ≠ filename.bytes := by
  intro same
  have longer : (filenameOld filename).length = filename.length := congrArg List.length same
  have positive : 0 < (dotOld.take (maxStringLen - filename.length - 1)).length := by
    change 0 < (dotOld.bytes.take (maxStringLen - filename.length - 1)).length
    rw [List.length_take]
    change 0 < min (maxStringLen - filename.length - 1) 4
    omega
  rw [filenameOld, CString.append_length] at longer
  omega

theorem contentOf_update (name : CString) (content : List UInt8) :
    contentOf (Function.update files name.bytes (some content)) name = content := by
  rw [contentOf, Function.update_self]
  rfl

theorem contentOf_removed (name : CString) : contentOf (removeFile files name) name = [] := by
  rw [contentOf, removeFile, Function.update_self]
  rfl

theorem contentOf_other {name other : CString} (apart : other.bytes ≠ name.bytes)
    (content : Option (List UInt8)) :
    contentOf (Function.update files name.bytes content) other = contentOf files other := by
  rw [contentOf, Function.update_of_ne apart, contentOf]

/-- What `rotate_log` does to the two files. -/
inductive Rotated (configLogFileSize : Int) (outcome : LogOutcome) (filename : CString)
    (files files' : Files) : Prop
  | kept (small : configLogFileSize = 0 ∨
        (contentOf files filename).length ≤ logLimit configLogFileSize)
      (log : contentOf files' filename = contentOf files filename)
      (old : contentOf files' (filenameOld filename) = contentOf files (filenameOld filename))
  | moved (renames : outcome.renames = true)
      (large : logLimit configLogFileSize < (contentOf files filename).length)
      (log : contentOf files' filename = [])
      (old : contentOf files' (filenameOld filename) = contentOf files filename)
  | truncated (fails : outcome.renames = false) (truncates : outcome.truncates = true)
      (log : contentOf files' filename = outcome.notes)
      (old : contentOf files' (filenameOld filename) = [])
  | lost (fails : outcome.renames = false) (keeps : outcome.truncates = false)
      (log : contentOf files' filename = contentOf files filename)
      (old : contentOf files' (filenameOld filename) = [])

def OnlyLogs (filename : CString) (files files' : Files) : Prop :=
  ∀ name, name ≠ filename.bytes → name ≠ (filenameOld filename).bytes → files' name = files name

theorem redirectStdio_content (outcome : LogOutcome) (filename name : CString) (files : Files) :
    contentOf (redirectStdio outcome filename files) name = contentOf files name := by
  rw [redirectStdio]
  split
  · rename_i missing
    rw [contentOf, contentOf]
    by_cases same : name.bytes = filename.bytes
    · rw [same, Function.update_self, missing.2]
      rfl
    · rw [Function.update_of_ne same]
  · rfl

theorem redirectStdio_others : OnlyLogs filename files (redirectStdio outcome filename files) := by
  intro name notLog _
  rw [redirectStdio]
  split
  · exact Function.update_of_ne notLog _ _
  · rfl

theorem moveLog_rotated (short : filename.length + 1 < maxStringLen) {content : List UInt8}
    (log : files filename.bytes = some content)
    (large : logLimit configLogFileSize < content.length) (newSize : Nat) :
    Rotated configLogFileSize outcome filename files (moveLog outcome filename files newSize).1 ∧
      OnlyLogs filename files (moveLog outcome filename files newSize).1 := by
  have apart := filenameOld_ne short
  have still : removeFile files (filenameOld filename) filename.bytes = some content :=
    (Function.update_of_ne apart.symm _ _).trans log
  have size : contentOf files filename = content := by
    rw [contentOf, log]
    rfl
  unfold moveLog
  dsimp only
  by_cases renames : outcome.renames = true
  · rw [if_pos renames, still]
    refine ⟨.moved renames (by rw [size]; exact large) ?_ ?_, fun name notLog notOld => ?_⟩
    · exact (contentOf_other apart.symm _).trans (contentOf_removed filename)
    · rw [size]
      exact contentOf_update (filenameOld filename) content
    · exact (Function.update_of_ne notOld _ _).trans
        ((Function.update_of_ne notLog _ _).trans (Function.update_of_ne notOld _ _))
  · rw [if_neg renames]
    rw [Bool.not_eq_true] at renames
    dsimp only
    by_cases truncates : outcome.truncates = true
    · rw [if_pos truncates]
      refine ⟨.truncated renames truncates ?_ ?_, fun name notLog notOld => ?_⟩
      · exact contentOf_update filename outcome.notes
      · exact (contentOf_other apart _).trans (contentOf_removed (filenameOld filename))
      · exact (Function.update_of_ne notLog _ _).trans (Function.update_of_ne notOld _ _)
    · rw [if_neg truncates]
      rw [Bool.not_eq_true] at truncates
      refine ⟨.lost renames truncates ?_ ?_, fun name _ notOld => ?_⟩
      · exact contentOf_other apart.symm _
      · exact contentOf_removed (filenameOld filename)
      · exact Function.update_of_ne notOld _ _

/-- What `nt_redirect_stdio` does afterwards changes nothing of this. -/
theorem Rotated.redirect {files' : Files}
    (rotated : Rotated configLogFileSize outcome filename files files') :
    Rotated configLogFileSize outcome filename files (redirectStdio outcome filename files') := by
  have same (name : CString) := redirectStdio_content outcome filename name files'
  cases rotated with
  | kept small log old => exact .kept small ((same _).trans log) ((same _).trans old)
  | moved renames large log old =>
      exact .moved renames large ((same _).trans log) ((same _).trans old)
  | truncated fails truncates log old =>
      exact .truncated fails truncates ((same _).trans log) ((same _).trans old)
  | lost fails keeps log old => exact .lost fails keeps ((same _).trans log) ((same _).trans old)

theorem rotateLog_rotated (short : filename.length + 1 < maxStringLen) (files : Files)
    (oldSize : Nat) :
    Rotated configLogFileSize outcome filename files
        (rotateLog configLogFileSize outcome filename files oldSize).1 ∧
      OnlyLogs filename files (rotateLog configLogFileSize outcome filename files oldSize).1 := by
  have redirected {files' : Files} (after : Rotated configLogFileSize outcome filename
      files files' ∧ OnlyLogs filename files files') (condition : Prop) [Decidable condition] :
      Rotated configLogFileSize outcome filename files
          (if condition then redirectStdio outcome filename files' else files') ∧
        OnlyLogs filename files
          (if condition then redirectStdio outcome filename files' else files') := by
    split
    · exact ⟨after.1.redirect, fun name notLog notOld =>
        (redirectStdio_others name notLog notOld).trans (after.2 name notLog notOld)⟩
    · exact after
  unfold rotateLog
  cases log : files filename.bytes with
  | none =>
      have small : (contentOf files filename).length ≤ logLimit configLogFileSize := by
        rw [contentOf, log]
        exact Nat.zero_le _
      exact ⟨(Rotated.kept (.inr small) rfl rfl).redirect, redirectStdio_others⟩
  | some content =>
      dsimp only
      split
      · rename_i large
        exact redirected (moveLog_rotated short log large.2 _) _
      · rename_i small
        have size : contentOf files filename = content := by
          rw [contentOf, log]
          rfl
        rw [not_and_or, not_not, not_lt, ← size] at small
        exact redirected ⟨.kept small rfl rfl, fun _ _ _ => rfl⟩ _

def LogFileCall.written (call : LogFileCall) : List UInt8 :=
  if call.outcome.appends then call.line.getD [] else []

/-- A call rotates the log, or leaves it, and then appends. -/
theorem LogFiles.call_spec (short : filename.length + 1 < maxStringLen) (s : LogFiles)
    (call : LogFileCall) :
    ∃ rotated, Rotated configLogFileSize call.outcome filename s.files rotated ∧
      contentOf (s.call configLogFileSize filename call).files filename =
        contentOf rotated filename ++ call.written ∧
      contentOf (s.call configLogFileSize filename call).files (filenameOld filename) =
        contentOf rotated (filenameOld filename) ∧
      OnlyLogs filename s.files (s.call configLogFileSize filename call).files := by
  have ⟨rotates, others⟩ := @rotateLog_rotated configLogFileSize call.outcome filename short
    s.files (s.oldSize call.process)
  unfold LogFiles.call LogFileCall.written
  cases call.line with
  | none =>
      refine ⟨_, rotates, ?_, rfl, others⟩
      rw [Option.getD_none, ite_self, List.append_nil]
  | some line =>
      have kept : Rotated configLogFileSize call.outcome filename s.files
          (if configLogFileSize ≠ 0 then rotateLog configLogFileSize call.outcome filename
            s.files (s.oldSize call.process) else (s.files, s.oldSize call.process)).1 ∧
          OnlyLogs filename s.files
          (if configLogFileSize ≠ 0 then rotateLog configLogFileSize call.outcome filename
            s.files (s.oldSize call.process) else (s.files, s.oldSize call.process)).1 := by
        split
        · exact ⟨rotates, others⟩
        · rename_i never
          exact ⟨.kept (.inl (not_not.mp never)) rfl rfl, fun _ _ _ => rfl⟩
      refine ⟨_, kept.1, ?_⟩
      unfold ntLogFile
      dsimp only
      by_cases appends : call.outcome.appends = true
      · rw [if_pos appends, if_pos appends]
        refine ⟨contentOf_update _ _, contentOf_other (filenameOld_ne short) _, ?_⟩
        intro name notLog notOld
        exact (Function.update_of_ne notLog _ _).trans (kept.2 name notLog notOld)
      · rw [if_neg appends, if_neg appends, List.append_nil]
        exact ⟨rfl, rfl, kept.2⟩

end Calls

theorem LogFiles.run_concat (configLogFileSize : Int) (filename : CString) (s : LogFiles)
    (calls : List LogFileCall) (call : LogFileCall) :
    s.run configLogFileSize filename (calls ++ [call]) =
      (s.run configLogFileSize filename calls).call configLogFileSize filename call :=
  List.foldl_append

/-- Whatever was written is still there, in its order, at the end of the two files, as far
as it was not dropped; and something is dropped only where the old log is larger than the
limit. -/
theorem logFiles_retained (configLogFileSize : Int) (filename : CString)
    (short : filename.length + 1 < maxStringLen) (s : LogFiles) (calls : List LogFileCall)
    (renames : ∀ call ∈ calls, call.outcome.renames = true) :
    ∃ dropped,
      dropped ++ contentOf (s.run configLogFileSize filename calls).files (filenameOld filename) ++
          contentOf (s.run configLogFileSize filename calls).files filename =
        contentOf s.files (filenameOld filename) ++ contentOf s.files filename ++
          calls.flatMap LogFileCall.written ∧
      (dropped = [] ∨ logLimit configLogFileSize <
        (contentOf (s.run configLogFileSize filename calls).files
          (filenameOld filename)).length) := by
  induction calls using List.reverseRecOn with
  | nil => exact ⟨[], by rw [List.flatMap_nil, List.append_nil]; rfl, .inl rfl⟩
  | append_singleton calls call ih =>
      have ⟨dropped, all, large⟩ := ih fun other isOther =>
        renames other (List.mem_append_left _ isOther)
      have ⟨rotated, rotates, log, old, _⟩ :=
        @LogFiles.call_spec configLogFileSize filename short
          (s.run configLogFileSize filename calls) call
      have works := renames call (List.mem_append_right _ List.mem_cons_self)
      rw [LogFiles.run_concat, List.flatMap_append, List.flatMap_singleton, log, old]
      cases rotates with
      | kept _ log old =>
          refine ⟨dropped, ?_, ?_⟩
          · rw [log, old, ← List.append_assoc, all, List.append_assoc]
          · rw [old]
            exact large
      | moved _ large log old =>
          refine ⟨dropped ++ contentOf (s.run configLogFileSize filename calls).files
            (filenameOld filename), ?_, .inr ?_⟩
          · rw [log, old, List.nil_append, all, List.append_assoc]
          · rw [old]
            exact large
      | truncated fails | lost fails =>
          rw [works] at fails
          cases fails

theorem LogFiles.call_large {configLogFileSize : Int} {filename : CString}
    (short : filename.length + 1 < maxStringLen) (s : LogFiles) (call : LogFileCall)
    (rotates : configLogFileSize ≠ 0)
    (works : call.outcome.renames = true ∨ call.outcome.truncates = true)
    (large : logLimit configLogFileSize < (contentOf s.files filename).length) :
    contentOf (s.call configLogFileSize filename call).files filename =
        (if call.outcome.renames then [] else call.outcome.notes) ++ call.written ∧
      contentOf (s.call configLogFileSize filename call).files (filenameOld filename) =
        if call.outcome.renames then contentOf s.files filename else [] := by
  obtain ⟨rotated, change, log, old, -⟩ := s.call_spec short call
  rw [log, old]
  cases change with
  | kept small =>
      rcases small with never | small
      · exact absurd never rotates
      · omega
  | moved renames _ log old =>
      rw [log, old, if_pos renames, if_pos renames]
      exact ⟨rfl, rfl⟩
  | truncated fails _ log old =>
      rw [log, old, fails]
      exact ⟨rfl, rfl⟩
  | lost fails keeps =>
      rw [fails, keeps] at works
      rcases works with works | works <;> cases works

/-- A log that is one byte larger than a limit of one mebibyte, and an old one. -/
def fullLog : LogFiles where
  files := Function.update
    (Function.update (fun _ => none) (filenameOld (longName 3)).bytes (some [64]))
    (longName 3).bytes (some (List.replicate 1048577 65))
  oldSize _ := 0

theorem longName_short : (longName 3).length + 1 < maxStringLen := by
  rw [longName_length]
  decide

theorem fullLog_contents :
    contentOf fullLog.files (longName 3) = List.replicate 1048577 65 ∧
      contentOf fullLog.files (filenameOld (longName 3)) = [64] :=
  ⟨contentOf_update _ _, (contentOf_other (filenameOld_ne longName_short) _).trans
    (contentOf_update _ _)⟩

theorem fullLog_large : logLimit 1 < (contentOf fullLog.files (longName 3)).length := by
  rw [fullLog_contents.1, List.length_replicate]
  decide

def rotatingCall (renames : Bool) : LogFileCall :=
  ⟨0, ⟨renames, true, true, true, [78, 10]⟩, some [66, 10]⟩

theorem logFiles_retained_rotation :
    contentOf (fullLog.run 1 (longName 3) [rotatingCall true]).files (longName 3) = [66, 10] ∧
      contentOf (fullLog.run 1 (longName 3) [rotatingCall true]).files
        (filenameOld (longName 3)) = List.replicate 1048577 65 ∧
      ∃ dropped : List UInt8, dropped ++ List.replicate 1048577 65 ++ [66, 10] =
        [64] ++ List.replicate 1048577 65 ++ [66, 10] ∧
        (dropped = [] ∨ logLimit 1 < (List.replicate 1048577 (65 : UInt8)).length) := by
  have rotates := LogFiles.call_large longName_short fullLog (rotatingCall true)
    (by decide) (.inl rfl) fullLog_large
  have log : contentOf (fullLog.run 1 (longName 3) [rotatingCall true]).files (longName 3) =
    [66, 10] := rotates.1
  have old : contentOf (fullLog.run 1 (longName 3) [rotatingCall true]).files
    (filenameOld (longName 3)) = List.replicate 1048577 65 := rotates.2.trans fullLog_contents.1
  obtain ⟨dropped, kept, large⟩ := logFiles_retained 1 (longName 3) longName_short fullLog
    [rotatingCall true] (by
      intro call isCall
      rw [List.mem_singleton.mp isCall]
      rfl)
  rw [log, old, fullLog_contents.1, fullLog_contents.2] at kept
  rw [old] at large
  exact ⟨log, old, dropped, kept, large⟩

/-- As long as an overlong log can be renamed or truncated, neither file is longer than it
was or than the limit and one more message; and no other file is touched. -/
theorem logFiles_bounded (configLogFileSize : Int) (filename : CString)
    (short : filename.length + 1 < maxStringLen) (rotates : configLogFileSize ≠ 0) (s : LogFiles)
    (calls : List LogFileCall) (longest : Nat)
    (works : ∀ call ∈ calls, call.outcome.renames = true ∨ call.outcome.truncates = true)
    (lines : ∀ call ∈ calls, call.outcome.notes.length + call.written.length ≤ longest) :
    (contentOf (s.run configLogFileSize filename calls).files filename).length ≤
        max (contentOf s.files filename).length (logLimit configLogFileSize + longest) ∧
      (contentOf (s.run configLogFileSize filename calls).files (filenameOld filename)).length ≤
        max (contentOf s.files (filenameOld filename)).length
          (max (contentOf s.files filename).length (logLimit configLogFileSize + longest)) ∧
      OnlyLogs filename s.files (s.run configLogFileSize filename calls).files := by
  induction calls using List.reverseRecOn with
  | nil => exact ⟨le_max_left _ _, le_max_left _ _, fun _ _ _ => rfl⟩
  | append_singleton calls call ih =>
      have ⟨logBound, oldBound, others⟩ := ih
        (fun other isOther => works other (List.mem_append_left _ isOther))
        fun other isOther => lines other (List.mem_append_left _ isOther)
      have ⟨rotated, change, log, old, only⟩ :=
        @LogFiles.call_spec configLogFileSize filename short
          (s.run configLogFileSize filename calls) call
      have work := works call (List.mem_append_right _ List.mem_cons_self)
      have line := lines call (List.mem_append_right _ List.mem_cons_self)
      rw [LogFiles.run_concat, log, old, List.length_append]
      refine ⟨?_, ?_, fun name notLog notOld =>
        (only name notLog notOld).trans (others name notLog notOld)⟩
      · cases change with
        | kept small log old =>
            rw [log]
            rcases small with never | small
            · exact absurd never rotates
            · omega
        | moved _ _ log old =>
            rw [log, List.length_nil]
            omega
        | truncated _ _ log old =>
            rw [log]
            omega
        | lost fails keeps =>
            rw [fails, keeps] at work
            rcases work with work | work <;> cases work
      · cases change with
        | kept _ _ old =>
            rw [old]
            exact oldBound
        | moved _ _ _ old =>
            rw [old]
            exact logBound.trans (le_max_right _ _)
        | truncated _ _ _ old =>
            rw [old]
            exact Nat.zero_le _
        | lost _ _ _ old =>
            rw [old]
            exact Nat.zero_le _

theorem logFiles_bounded_rotation :
    contentOf (fullLog.run 1 (longName 3) [rotatingCall false]).files (longName 3) =
        [78, 10, 66, 10] ∧
      (contentOf (fullLog.run 1 (longName 3) [rotatingCall false]).files (longName 3)).length ≤
        max 1048577 (logLimit 1 + 4) ∧
      (contentOf (fullLog.run 1 (longName 3) [rotatingCall false]).files
        (filenameOld (longName 3))).length ≤ max 1 (max 1048577 (logLimit 1 + 4)) := by
  have log := (LogFiles.call_large longName_short fullLog (rotatingCall false)
    (by decide) (.inr rfl) fullLog_large).1
  obtain ⟨logBound, oldBound, -⟩ := logFiles_bounded 1 (longName 3) longName_short (by decide)
    fullLog [rotatingCall false] 4
    (by
      intro call isCall
      rw [List.mem_singleton.mp isCall]
      exact .inr rfl)
    (by
      intro call isCall
      rw [List.mem_singleton.mp isCall]
      decide)
  rw [fullLog_contents.1, List.length_replicate] at logBound oldBound
  rw [fullLog_contents.2] at oldBound
  exact ⟨log, logBound, oldBound⟩

end NtShm
