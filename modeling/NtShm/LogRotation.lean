import NtShm.CStrings

/-!
# The name of the rotated log

`rotate_log` moves the log to a name with `.old` behind it, which it makes up in a
buffer as large as the longest name that `nt_open_log` accepts with its NUL.
-/

namespace NtShm

/-- `MAX_STRING_LEN`. -/
def maxStringLen : Nat := 2048

/-- `".old"`. -/
def dotOld : CString := ⟨[46, 111, 108, 100], by decide⟩

/-- What `nt_open_log` does with the name of a log file: it is too long, or it is copied
to `log_filename`. -/
def openLogName (mem : Memory) (logFilename : Nat) (filename : CString) : Option Memory :=
  if maxStringLen ≤ filename.length then none
  else some (ntStrlcpy mem logFilename filename maxStringLen).1

/-- `filename_old`, as `rotate_log` makes it up. -/
def rotatedName (mem : Memory) (filenameOld : Nat) (filename : CString) : Option Memory :=
  let mem := (ntStrlcpy mem filenameOld filename maxStringLen).1
  ntStrlcat mem filenameOld dotOld maxStringLen

abbrev Files := List UInt8 → Option (List UInt8)

/-- `remove`. -/
def removeFile (files : Files) (name : CString) : Files :=
  Function.update files name.bytes none

/-- The old name is the name of the log with `.old` behind it, with its NUL in the
buffer, and to remove the file of that name leaves the log. -/
structure RotationRight (mem : Memory) (filenameOld : Nat) (filename : CString) : Prop where
  stands : (filename.append dotOld).StandsAt mem filenameOld
  inside : (filename.append dotOld).length < maxStringLen
  keeps : ∀ name : CString, name.StandsAt mem filenameOld → ∀ files : Files,
    removeFile files name filename.bytes = files filename.bytes

section Rotation

variable {mem mem' : Memory} {logFilename filenameOld : Nat} {filename : CString}

theorem dotOld_length : dotOld.length = 4 := rfl

theorem rotatedName_spec (mem : Memory) (filenameOld : Nat)
    (accepted : filename.length < maxStringLen) :
    ∃ mem', rotatedName mem filenameOld filename = some mem' ∧
      (filename.append (dotOld.take (maxStringLen - filename.length - 1))).StandsAt
        mem' filenameOld ∧
      ∀ position, position < filenameOld ∨ filenameOld + maxStringLen ≤ position →
        mem' position = mem position := by
  obtain ⟨stands, kept, -⟩ := ntStrlcpy_spec mem filenameOld maxStringLen accepted
  obtain ⟨mem', appends, stands', kept'⟩ :=
    ntStrlcat_spec stands accepted (by decide) dotOld
  refine ⟨mem', appends, stands', fun position outside => ?_⟩
  rw [kept' position outside, kept position (by omega)]

theorem openLogName_eq_some (opens : openLogName mem logFilename filename = some mem') :
    filename.length < maxStringLen ∧ filename.StandsAt mem' logFilename := by
  rw [openLogName, Option.ite_none_left_eq_some] at opens
  obtain ⟨short, same⟩ := opens
  cases same
  exact ⟨not_le.mp short, (ntStrlcpy_spec mem logFilename maxStringLen (not_le.mp short)).1⟩

/-- The suffix is whole if and only if it fits. -/
theorem rotationRight_iff
    (stands : (filename.append (dotOld.take (maxStringLen - filename.length - 1))).StandsAt
      mem filenameOld) :
    RotationRight mem filenameOld filename ↔ filename.length + 4 < maxStringLen := by
  constructor
  · intro right
    have inside := right.inside
    rwa [CString.append_length, dotOld_length] at inside
  · intro fits
    rw [CString.take_of_length_le (by rw [dotOld_length]; omega)] at stands
    refine ⟨stands, by rwa [CString.append_length, dotOld_length], ?_⟩
    intro name stands' files
    rw [stands'.unique stands]
    apply Function.update_of_ne
    intro same
    have longer := congrArg List.length same
    rw [show (filename.append dotOld).bytes.length = filename.length + 4 from
      CString.append_length filename dotOld, CString.length] at longer
    omega

/-- A log whose name is accepted is rotated to the right name if and only if that name
is not too long either.  Nothing is ever written outside of the buffer. -/
theorem rotatedName_right_iff (opens : openLogName mem logFilename filename = some mem')
    (filenameOld : Nat) :
    filename.StandsAt mem' logFilename ∧
      ∃ mem'', rotatedName mem' filenameOld filename = some mem'' ∧
        (∀ position, position < filenameOld ∨ filenameOld + maxStringLen ≤ position →
          mem'' position = mem' position) ∧
        (RotationRight mem'' filenameOld filename ↔ filename.length + 4 < maxStringLen) := by
  obtain ⟨accepted, stands⟩ := openLogName_eq_some opens
  obtain ⟨mem'', rotates, stands', kept⟩ := rotatedName_spec mem' filenameOld accepted
  exact ⟨stands, mem'', rotates, kept, rotationRight_iff stands'⟩

end Rotation

/-- A path of this many bytes, with directories of 99 bytes. -/
def longName (length : Nat) : CString where
  bytes := (List.range length).map fun position => if position % 100 = 99 then 47 else 97
  noNul := by
    intro inName
    obtain ⟨position, -, isZero⟩ := List.mem_map.mp inName
    split at isZero <;> cases isZero

theorem longName_length (length : Nat) : (longName length).length = length := by
  rw [CString.length, longName, List.length_map, List.length_range]

theorem openLogName_longName {length : Nat} (short : length < maxStringLen) (mem : Memory) :
    ∃ mem', openLogName mem 0 (longName length) = some mem' := by
  refine ⟨_, if_neg ?_⟩
  rw [longName_length]
  exact not_le.mpr short

/-- With the longest name that is accepted, the rotated log has the name of the log, and
the log is removed. -/
theorem rotatedName_removesLog :
    ∃ mem mem', openLogName (fun _ => 0) 0 (longName 2047) = some mem ∧
      rotatedName mem 4096 (longName 2047) = some mem' ∧
      (longName 2047).StandsAt mem' 4096 ∧
      removeFile (fun _ => some [7]) (longName 2047) (longName 2047).bytes = none ∧
      ¬ RotationRight mem' 4096 (longName 2047) := by
  obtain ⟨mem, opens⟩ := openLogName_longName (by decide : 2047 < maxStringLen) fun _ => 0
  obtain ⟨accepted, -⟩ := openLogName_eq_some opens
  obtain ⟨mem', rotates, stands, -⟩ := rotatedName_spec mem 4096 accepted
  have noSuffix : (longName 2047).append (dotOld.take 0) = longName 2047 := by
    simp [CString.append, CString.take]
  rw [longName_length, show maxStringLen - 2047 - 1 = 0 from rfl, noSuffix] at stands
  have removed : removeFile (fun _ => some [7]) (longName 2047) (longName 2047).bytes = none :=
    Function.update_self ..
  refine ⟨mem, mem', opens, rotates, stands, removed, fun right => ?_⟩
  cases (right.keeps _ stands _).symm.trans removed

/-- With a name of 2043 bytes, the name of the rotated log just fits. -/
theorem rotatedName_right_longest :
    ∃ mem mem', openLogName (fun _ => 0) 0 (longName 2043) = some mem ∧
      rotatedName mem 4096 (longName 2043) = some mem' ∧
      RotationRight mem' 4096 (longName 2043) := by
  obtain ⟨mem, opens⟩ := openLogName_longName (by decide : 2043 < maxStringLen) fun _ => 0
  obtain ⟨-, mem', rotates, -, right⟩ := rotatedName_right_iff opens 4096
  refine ⟨mem, mem', opens, rotates, right.mpr ?_⟩
  rw [longName_length]
  decide

end NtShm
