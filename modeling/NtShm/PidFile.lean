import Mathlib.Data.List.Basic
import Mathlib.Logic.Function.Basic

/-!
# The PID file

A daemon keeps a lock on its PID file, and a process that cannot take the lock does not
start.  Processes start, fork, stop and are killed at any point, and their system calls mix
in any order.
-/

namespace NtShm

structure PidFiles where
  /-- The file at `CONFIG_PID_FILE`. -/
  path : Option Nat
  /-- The files that ever were. -/
  count : Nat
  contents : Nat → List Char
  /-- The process with the write lock on a file. -/
  locks : Nat → Option Nat

namespace PidFiles

variable (files : PidFiles)

/-- `fcntl(fd, F_SETLK, &fl)` with `F_WRLCK`, and whether it succeeds. -/
def setLock (p inode : Nat) : PidFiles × Bool :=
  if files.locks inode = none ∨ files.locks inode = some p then
    ({ files with locks := Function.update files.locks inode (some p) }, true)
  else (files, false)

/-- The process gives up its lock on a file: with `F_UNLCK`, or as it closes the file. -/
def unlock (p inode : Nat) : PidFiles :=
  if files.locks inode = some p then
    { files with locks := Function.update files.locks inode none }
  else files

def leave (p : Nat) : PidFiles :=
  { files with
    locks := fun inode => if files.locks inode = some p then none else files.locks inode }

/-- `fopen(pidfile, "w")`, and the file that is open. -/
def create : PidFiles × Nat :=
  match files.path with
  | some inode => ({ files with contents := Function.update files.contents inode [] }, inode)
  | none =>
      ({ files with
        path := some files.count
        count := files.count + 1
        contents := Function.update files.contents files.count [] }, files.count)

def write (inode : Nat) (text : List Char) : PidFiles :=
  { files with
    contents := Function.update files.contents inode
      (text ++ (files.contents inode).drop text.length) }

end PidFiles

inductive PidPc
  /-- Before `create_pid_file`. -/
  | starting
  /-- Before `open`. -/
  | opening
  /-- Before the first `fcntl`. -/
  | checking
  /-- Before `close`, after the lock was taken or not. -/
  | closing (locked : Bool)
  /-- Before `fopen`. -/
  | creating
  /-- Before the second `fcntl`. -/
  | locking
  /-- Before `fprintf` and `fflush`. -/
  | writing
  | running
  /-- Before the `fcntl` of `drop_pid_file`. -/
  | unlocking
  /-- Before `fclose`. -/
  | dropping
  /-- Before `unlink`. -/
  | unlinking
  | gone
  deriving DecidableEq

structure PidProcess where
  pc : PidPc
  /-- The file that `create_pid_file` has open as `fd`. -/
  fd : Option Nat
  /-- The file that `fpid` and `fdpid` are of. -/
  fdpid : Option Nat
  /-- `parent_pid`, with which `daemon_stop` is registered. -/
  parentPid : Option Nat

structure PidSystem where
  files : PidFiles
  processes : List PidProcess

inductive PidAction
  /-- The next system call of `create_pid_file` or of `daemon_stop`. -/
  | call
  | fork
  /-- `exit`, which calls `daemon_stop`. -/
  | exit
  /-- The process is killed, or a call fails for another reason and it ends. -/
  | kill
  deriving DecidableEq

/-- `"%d"` of a process number. -/
def pidText (p : Nat) : List Char := (toString p).toList

namespace PidProcess

variable (process : PidProcess)

def goTo (pc : PidPc) : PidProcess := { process with pc := pc }

/-- The next system call of process `p`. -/
def call (files : PidFiles) (p : Nat) : Option (PidFiles × PidProcess) :=
  match process.pc with
  | .starting =>
      some (files, process.goTo (if files.path.isSome then .opening else .creating))
  | .opening =>
      match files.path with
      | some inode => some (files, { process.goTo .checking with fd := some inode })
      | none => some (files.leave p, process.goTo .gone)
  | .checking => do
      let inode ← process.fd
      let (files, locked) := files.setLock p inode
      some (files, process.goTo (.closing locked))
  | .closing locked => do
      let inode ← process.fd
      let files := files.unlock p inode
      if locked then some (files, process.goTo .creating)
      else some (files.leave p, process.goTo .gone)
  | .creating =>
      let (files, inode) := files.create
      some (files, { process.goTo .locking with fdpid := some inode })
  | .locking => do
      let inode ← process.fdpid
      some ((files.setLock p inode).1, process.goTo .writing)
  | .writing => do
      let inode ← process.fdpid
      some (files.write inode (pidText p), { process.goTo .running with parentPid := some p })
  | .unlocking => do
      let inode ← process.fdpid
      some (files.unlock p inode, process.goTo .dropping)
  | .dropping => do
      let inode ← process.fdpid
      some (files.unlock p inode, { process.goTo .unlinking with fdpid := none })
  | .unlinking => some ({ files with path := none }.leave p, process.goTo .gone)
  | .running | .gone => none

end PidProcess

/-- An action of process `p`. -/
def PidSystem.step (s : PidSystem) (p : Nat) : PidAction → Option PidSystem
  | .call => do
      let process ← s.processes[p]?
      let (files, process) ← process.call s.files p
      some ⟨files, s.processes.set p process⟩
  | .fork => do
      let process ← s.processes[p]?
      if process.pc = .running then some ⟨s.files, s.processes ++ [process]⟩ else none
  | .exit => do
      let process ← s.processes[p]?
      if process.pc = .running then
        if process.parentPid = some p then
          some ⟨s.files, s.processes.set p (process.goTo .unlocking)⟩
        else some ⟨s.files.leave p, s.processes.set p (process.goTo .gone)⟩
      else none
  | .kill => do
      let process ← s.processes[p]?
      some ⟨s.files.leave p, s.processes.set p (process.goTo .gone)⟩

def PidSystem.calls (s : PidSystem) (p : Nat) : Nat → Option PidSystem
  | 0 => some s
  | n + 1 => do (← s.step p .call).calls p n

/-! ## Starts and stops that do not overlap -/

namespace PidProcess

/-- Between the check and the lock, or between the end of the lock and that of the file. -/
def unsettled (process : PidProcess) : Bool :=
  match process.pc with
  | .creating | .locking | .dropping | .unlinking => true
  | _ => false

/-- The daemon, or a process that is about to be or was it. -/
def active (process : PidProcess) (p : Nat) : Bool :=
  match process.pc with
  | .closing locked => locked
  | .creating | .locking | .writing | .unlocking | .dropping | .unlinking => true
  | .running => process.parentPid == some p
  | _ => false

def lockedFile (process : PidProcess) (p : Nat) : Option Nat :=
  match process.pc with
  | .closing locked => if locked then process.fd else none
  | .writing | .unlocking => process.fdpid
  | .running => if process.parentPid = some p then process.fdpid else none
  | _ => none

/-- The process finds no PID file, or finds its file not locked. -/
def passes (process : PidProcess) (files : PidFiles) (p : Nat) : Prop :=
  process.pc = .starting ∧ files.path = none ∨
    process.pc = .checking ∧ ∃ inode, process.fd = some inode ∧ (files.setLock p inode).2 = true

end PidProcess

/-- A process passes the check only while no other one is unsettled, and with the file
that is the PID file. -/
def PidSystem.Quiet (s : PidSystem) (p : Nat) (action : PidAction) : Prop :=
  action = .call → ∀ process, s.processes[p]? = some process → process.passes s.files p →
    (∀ q other, q ≠ p → s.processes[q]? = some other → other.unsettled = false) ∧
      (process.pc = .checking → process.fd = s.files.path)

inductive PidRun (initial : PidSystem) : PidSystem → Prop
  | start : PidRun initial initial
  | step {s p action s'} : PidRun initial s → s.Quiet p action → s.step p action = some s' →
      PidRun initial s'

/-- Some processes are about to start, with any PID file that was left, or none. -/
structure PidInitial (s : PidSystem) : Prop where
  starting : ∀ process ∈ s.processes, process.pc = .starting ∧ process.parentPid = none
  unlocked : ∀ inode, s.files.locks inode = none

def PidSystem.Daemon (s : PidSystem) (p : Nat) : Prop :=
  ∃ process, s.processes[p]? = some process ∧ process.pc = .running ∧
    process.parentPid = some p

/-! ## The invariant -/

structure PidFiles.Holds (files : PidFiles) (p : Nat) (process : PidProcess) : Prop where
  locked : ∀ inode, process.lockedFile p = some inode →
    files.path = some inode ∧ files.locks inode = some p
  checked : process.pc = .closing true → process.fd.isSome
  created : process.pc = .locking ∨ process.pc = .writing →
    ∃ inode, process.fdpid = some inode ∧ files.path = some inode ∧ files.contents inode = []
  written : process.pc = .running ∨ process.pc = .unlocking →
    ∃ inode, process.fdpid = some inode ∧ files.contents inode = pidText p

/-- At most one process is active, and only it has a lock. -/
structure PidSystem.Orderly (s : PidSystem) : Prop where
  one : ∀ p q (process other : PidProcess), s.processes[p]? = some process →
    s.processes[q]? = some other → process.active p = true → other.active q = true → p = q
  holds : ∀ p (process : PidProcess), s.processes[p]? = some process →
    process.active p = true → s.files.Holds p process
  locks : ∀ inode p, s.files.locks inode = some p →
    ∃ process : PidProcess, s.processes[p]? = some process ∧ process.lockedFile p = some inode
  parents : ∀ process ∈ s.processes, ∀ p, process.parentPid = some p → p < s.processes.length

section Invariant

variable {s : PidSystem} {files : PidFiles} {p q inode : Nat} {process process' : PidProcess}

theorem PidProcess.active_of_locked (locked : process.lockedFile p = some inode) :
    process.active p = true := by
  unfold lockedFile at locked
  unfold active
  split at locked <;> simp_all

theorem PidSystem.Orderly.set (orderly : s.Orderly) (isProcess : s.processes[p]? = some process)
    (alone : process'.active p = true → ∀ q (other : PidProcess), q ≠ p →
      s.processes[q]? = some other → other.active q = false)
    (holds : process'.active p = true → files.Holds p process')
    (others : ∀ q (other : PidProcess), q ≠ p → s.processes[q]? = some other →
      other.active q = true → files.Holds q other)
    (locks : ∀ inode q, files.locks inode = some q →
      q = p ∧ process'.lockedFile p = some inode ∨ q ≠ p ∧ s.files.locks inode = some q)
    (parent : ∀ q, process'.parentPid = some q → process.parentPid = some q ∨ q = p) :
    PidSystem.Orderly ⟨files, s.processes.set p process'⟩ := by
  have inRange := (List.getElem?_eq_some_iff.mp isProcess).1
  have isNew (other : PidProcess) : (s.processes.set p process')[p]? = some other →
      other = process' := by
    intro isOther
    rw [List.getElem?_set_self inRange] at isOther
    exact (Option.some.inj isOther).symm
  have isOld {q : Nat} (apart : q ≠ p) :
      (s.processes.set p process')[q]? = s.processes[q]? :=
    List.getElem?_set_ne (Ne.symm apart)
  constructor
  case one =>
    intro q r first second isFirst isSecond active active'
    by_cases here : q = p
    · by_cases here' : r = p
      · rw [here, here']
      · subst here
        rw [isNew first isFirst] at active
        rw [isOld here'] at isSecond
        rw [alone active r second here' isSecond] at active'
        cases active'
    · rw [isOld here] at isFirst
      by_cases here' : r = p
      · subst here'
        rw [isNew second isSecond] at active'
        rw [alone active' q first here isFirst] at active
        cases active
      · rw [isOld here'] at isSecond
        exact orderly.one q r first second isFirst isSecond active active'
  case holds =>
    intro q other isOther active
    by_cases here : q = p
    · subst here
      rw [isNew other isOther] at active ⊢
      exact holds active
    · rw [isOld here] at isOther
      exact others q other here isOther active
  case locks =>
    intro inode q isLocked
    rcases locks inode q isLocked with ⟨rfl, locked⟩ | ⟨apart, wasLocked⟩
    · exact ⟨process', List.getElem?_set_self inRange, locked⟩
    · obtain ⟨other, isOther, locked⟩ := orderly.locks inode q wasLocked
      exact ⟨other, (isOld apart).trans isOther, locked⟩
  case parents =>
    intro other isOther q isParent
    rw [List.length_set]
    rcases List.mem_or_eq_of_mem_set isOther with wasThere | rfl
    · exact orderly.parents other wasThere q isParent
    · rcases parent q isParent with same | rfl
      · exact orderly.parents process (List.mem_of_getElem? isProcess) q same
      · exact inRange

theorem PidFiles.Holds.of_locks (holds : files.Holds q process) {files' : PidFiles}
    (path : files'.path = files.path) (contents : files'.contents = files.contents)
    (locks : ∀ inode, files.locks inode = some q → files'.locks inode = some q) :
    files'.Holds q process := by
  constructor
  case locked =>
    intro inode isLocked
    obtain ⟨isPath, wasLocked⟩ := holds.locked inode isLocked
    exact ⟨path.trans isPath, locks inode wasLocked⟩
  case checked => exact holds.checked
  case created =>
    rw [path, contents]
    exact holds.created
  case written =>
    rw [contents]
    exact holds.written

/-- A process that is not active goes on without being active, and may give up locks. -/
theorem PidSystem.Orderly.idle (orderly : s.Orderly)
    (isProcess : s.processes[p]? = some process) (idle' : process'.active p = false)
    (path : files.path = s.files.path) (contents : files.contents = s.files.contents)
    (locks : ∀ inode q, files.locks inode = some q ↔ s.files.locks inode = some q ∧ q ≠ p)
    (parent : process'.parentPid = process.parentPid) :
    PidSystem.Orderly ⟨files, s.processes.set p process'⟩ := by
  apply orderly.set isProcess
  · intro active
    rw [idle'] at active
    cases active
  · intro active
    rw [idle'] at active
    cases active
  · intro q other apart isOther active
    apply (orderly.holds q other isOther active).of_locks path contents
    intro inode isLocked
    exact (locks inode q).mpr ⟨isLocked, apart⟩
  · intro inode q isLocked
    exact Or.inr ((locks inode q).mp isLocked).symm
  · intro q isParent
    exact Or.inl (parent ▸ isParent)

def PidSystem.Alone (s : PidSystem) (p : Nat) : Prop :=
  ∀ q (other : PidProcess), q ≠ p → s.processes[q]? = some other → other.active q = false

theorem PidSystem.Orderly.alone (orderly : s.Orderly) (isProcess : s.processes[p]? = some process)
    (active : process.active p = true) : s.Alone p := by
  intro q other apart isOther
  rw [← Bool.not_eq_true]
  intro active'
  exact apart (orderly.one q p other process isOther isProcess active' active)

theorem PidSystem.Orderly.locks_of_alone (orderly : s.Orderly)
    (isProcess : s.processes[p]? = some process) (alone : s.Alone p)
    (isLocked : s.files.locks inode = some q) : q = p ∧ process.lockedFile p = some inode := by
  obtain ⟨other, isOther, locked⟩ := orderly.locks inode q isLocked
  by_cases here : q = p
  · subst here
    cases isProcess.symm.trans isOther
    exact ⟨rfl, locked⟩
  · have active := PidProcess.active_of_locked locked
    rw [alone q other here isOther] at active
    cases active

theorem PidSystem.Orderly.unlocked (orderly : s.Orderly)
    (isProcess : s.processes[p]? = some process) (alone : s.Alone p)
    (none : process.lockedFile p = none) (inode : Nat) : s.files.locks inode = Option.none := by
  rw [Option.eq_none_iff_forall_ne_some]
  intro q isLocked
  have locked := (orderly.locks_of_alone isProcess alone isLocked).2
  rw [none] at locked
  cases locked

theorem PidSystem.Orderly.sole (orderly : s.Orderly)
    (isProcess : s.processes[p]? = some process) (alone : s.Alone p)
    (holds : files.Holds p process')
    (locks : ∀ inode q, files.locks inode = some q →
      q = p ∧ process'.lockedFile p = some inode)
    (parent : process'.parentPid = process.parentPid ∨ process'.parentPid = some p) :
    PidSystem.Orderly ⟨files, s.processes.set p process'⟩ := by
  apply orderly.set isProcess (fun _ => alone) (fun _ => holds)
  · intro q other apart isOther active
    rw [alone q other apart isOther] at active
    cases active
  · exact fun inode q isLocked => Or.inl (locks inode q isLocked)
  · intro q isParent
    rcases parent with same | own
    · exact Or.inl (same ▸ isParent)
    · exact Or.inr (Option.some.inj (isParent.symm.trans own))

/-- A settled process that is active has locked the PID file. -/
theorem PidFiles.Holds.path_locked (holds : files.Holds p process)
    (active : process.active p = true) (settled : process.unsettled = false) :
    ∃ inode, files.path = some inode ∧ files.locks inode = some p := by
  have some : (process.lockedFile p).isSome := by
    cases isPc : process.pc with
    | closing locked =>
        simp only [PidProcess.active, isPc] at active
        subst active
        simp only [PidProcess.lockedFile, isPc]
        exact holds.checked isPc
    | writing =>
        obtain ⟨inode, isOpen, -⟩ := holds.created (Or.inr isPc)
        simp only [PidProcess.lockedFile, isPc, isOpen, Option.isSome_some]
    | running =>
        obtain ⟨inode, isOpen, -⟩ := holds.written (Or.inl isPc)
        simp only [PidProcess.active, isPc, beq_iff_eq] at active
        simp only [PidProcess.lockedFile, isPc, active, isOpen, if_true, Option.isSome_some]
    | unlocking =>
        obtain ⟨inode, isOpen, -⟩ := holds.written (Or.inr isPc)
        simp only [PidProcess.lockedFile, isPc, isOpen, Option.isSome_some]
    | starting | opening | checking | gone => simp [PidProcess.active, isPc] at active
    | creating | locking | dropping | unlinking => simp [PidProcess.unsettled, isPc] at settled
  obtain ⟨inode, locked⟩ := Option.isSome_iff_exists.mp some
  exact ⟨inode, holds.locked inode locked⟩

@[simp] theorem PidFiles.leave_locks (files : PidFiles) (p inode q : Nat) :
    (files.leave p).locks inode = some q ↔ files.locks inode = some q ∧ q ≠ p := by
  change (if files.locks inode = some p then none else files.locks inode) = some q ↔ _
  by_cases own : files.locks inode = some p
  · rw [if_pos own, own]
    simp [eq_comm]
  · rw [if_neg own]
    refine ⟨fun isLocked => ⟨isLocked, ?_⟩, And.left⟩
    rintro rfl
    exact own isLocked

theorem PidFiles.unlock_locks (files : PidFiles) (p inode other q : Nat) :
    (files.unlock p inode).locks other = some q ↔
      files.locks other = some q ∧ ¬ (other = inode ∧ q = p) := by
  rw [unlock]
  by_cases own : files.locks inode = some p
  · rw [if_pos own]
    by_cases here : other = inode
    · subst here
      simp [own, eq_comm]
    · simp [here]
  · rw [if_neg own]
    refine ⟨fun isLocked => ⟨isLocked, ?_⟩, And.left⟩
    rintro ⟨rfl, rfl⟩
    exact own isLocked

theorem PidSystem.Orderly.fork (orderly : s.Orderly) (isProcess : s.processes[p]? = some process)
    (running : process.pc = .running) :
    PidSystem.Orderly ⟨s.files, s.processes ++ [process]⟩ := by
  have idle : process.active s.processes.length = false := by
    simp only [PidProcess.active, running, beq_eq_false_iff_ne]
    intro isParent
    exact Nat.lt_irrefl _ (orderly.parents process (List.mem_of_getElem? isProcess) _ isParent)
  -- Only the processes from before can be active.
  have old {q : Nat} {other : PidProcess}
      (isOther : (s.processes ++ [process])[q]? = some other) (active : other.active q = true) :
      s.processes[q]? = some other := by
    rcases Nat.lt_trichotomy q s.processes.length with before | rfl | past
    · rwa [List.getElem?_append_left before] at isOther
    · rw [List.getElem?_concat_length] at isOther
      cases isOther
      rw [idle] at active
      cases active
    · rw [List.getElem?_eq_none (by simp; omega)] at isOther
      cases isOther
  constructor
  case one =>
    intro q r first second isFirst isSecond active active'
    exact orderly.one q r first second (old isFirst active) (old isSecond active') active active'
  case holds =>
    intro q other isOther active
    exact orderly.holds q other (old isOther active) active
  case locks =>
    intro inode q isLocked
    obtain ⟨other, isOther, locked⟩ := orderly.locks inode q isLocked
    have inRange := (List.getElem?_eq_some_iff.mp isOther).1
    exact ⟨other, (List.getElem?_append_left inRange).trans isOther, locked⟩
  case parents =>
    intro other isOther q isParent
    rw [List.length_append]
    have wasThere : other ∈ s.processes := by
      rcases List.mem_append.mp isOther with wasThere | isNew
      · exact wasThere
      · rw [List.mem_singleton.mp isNew]
        exact List.mem_of_getElem? isProcess
    exact Nat.lt_add_right 1 (orderly.parents other wasThere q isParent)

/-- Nobody is active where every active process would be settled but the PID file is
another one, or is not locked by it. -/
theorem PidSystem.Orderly.alone_of_settled (orderly : s.Orderly)
    (settled : ∀ q (other : PidProcess), q ≠ p → s.processes[q]? = some other →
      other.unsettled = false)
    (free : ∀ q inode, q ≠ p → s.files.path = some inode → s.files.locks inode ≠ some q) :
    s.Alone p := by
  intro q other apart isOther
  rw [← Bool.not_eq_true]
  intro active
  obtain ⟨inode, isPath, isLocked⟩ :=
    (orderly.holds q other isOther active).path_locked active (settled q other apart isOther)
  exact free q inode apart isPath isLocked

theorem PidFiles.setLock_granted (granted : (files.setLock p inode).2 = true) :
    (files.locks inode = none ∨ files.locks inode = some p) ∧
      (files.setLock p inode).1 =
        { files with locks := Function.update files.locks inode (some p) } := by
  rw [setLock] at granted ⊢
  split at granted
  · next free =>
      rw [if_pos free]
      exact ⟨free, rfl⟩
  · cases granted

theorem PidFiles.setLock_denied (denied : (files.setLock p inode).2 = false) :
    (files.setLock p inode).1 = files := by
  rw [setLock] at denied ⊢
  split at denied
  · cases denied
  · next busy => rw [if_neg busy]

/-- Locks of others that are not lost when a process that has none gives up its locks. -/
theorem PidSystem.Orderly.lockless (orderly : s.Orderly)
    (isProcess : s.processes[p]? = some process) (none : process.lockedFile p = none)
    (inode q : Nat) : s.files.locks inode = some q ↔ s.files.locks inode = some q ∧ q ≠ p := by
  refine ⟨fun isLocked => ⟨isLocked, ?_⟩, And.left⟩
  rintro rfl
  obtain ⟨other, isOther, locked⟩ := orderly.locks inode q isLocked
  cases isProcess.symm.trans isOther
  rw [none] at locked
  cases locked

/-- Nothing has to be so before the file is created, and after the lock is given up. -/
theorem PidFiles.holds_of_unsettled (files : PidFiles)
    (isPc : process.pc = .creating ∨ process.pc = .dropping ∨ process.pc = .unlinking) :
    files.Holds p process := by
  constructor
  case locked =>
    intro inode locked
    rcases isPc with isPc | isPc | isPc <;> simp only [PidProcess.lockedFile, isPc] at locked <;>
      cases locked
  case checked =>
    intro isClosing
    rcases isPc with isPc | isPc | isPc <;> cases isPc.symm.trans isClosing
  case created =>
    rintro (isLocking | isWriting)
    · rcases isPc with isPc | isPc | isPc <;> cases isPc.symm.trans isLocking
    · rcases isPc with isPc | isPc | isPc <;> cases isPc.symm.trans isWriting
  case written =>
    rintro (isRunning | isUnlocking)
    · rcases isPc with isPc | isPc | isPc <;> cases isPc.symm.trans isRunning
    · rcases isPc with isPc | isPc | isPc <;> cases isPc.symm.trans isUnlocking

theorem PidSystem.Orderly.sole_unlocked (orderly : s.Orderly)
    (isProcess : s.processes[p]? = some process) (alone : s.Alone p)
    (holds : files.Holds p process') (unlocked : ∀ inode, files.locks inode = none)
    (parent : process'.parentPid = process.parentPid) :
    PidSystem.Orderly ⟨files, s.processes.set p process'⟩ := by
  apply orderly.sole isProcess alone holds _ (Or.inl parent)
  intro inode q isLocked
  rw [unlocked] at isLocked
  cases isLocked

theorem PidSystem.Orderly.unlocked_after (orderly : s.Orderly)
    (isProcess : s.processes[p]? = some process) (alone : s.Alone p)
    (isFile : process.lockedFile p = some inode) (other : Nat) :
    (s.files.unlock p inode).locks other = none := by
  rw [Option.eq_none_iff_forall_ne_some]
  intro q isLocked
  rw [PidFiles.unlock_locks] at isLocked
  obtain ⟨rfl, locked⟩ := orderly.locks_of_alone isProcess alone isLocked.1
  cases isFile.symm.trans locked
  exact isLocked.2 ⟨rfl, rfl⟩

@[simp] theorem PidFiles.unlock_path (files : PidFiles) (p inode : Nat) :
    (files.unlock p inode).path = files.path := by
  rw [unlock]
  split <;> rfl

@[simp] theorem PidFiles.unlock_contents (files : PidFiles) (p inode : Nat) :
    (files.unlock p inode).contents = files.contents := by
  rw [unlock]
  split <;> rfl

theorem PidFiles.create_spec (files : PidFiles) :
    files.create.1.path = some files.create.2 ∧
      files.create.1.contents files.create.2 = [] ∧ files.create.1.locks = files.locks := by
  rw [create]
  split
  · next inode isPath => exact ⟨isPath, Function.update_self _ _ _, rfl⟩
  · exact ⟨rfl, Function.update_self _ _ _, rfl⟩

theorem PidSystem.Orderly.sole_locked (orderly : s.Orderly)
    (isProcess : s.processes[p]? = some process) (alone : s.Alone p)
    (noLock : process.lockedFile p = none) (holds : files.Holds p process')
    (isFile : process'.lockedFile p = some inode)
    (locks : files.locks = Function.update s.files.locks inode (some p))
    (parent : process'.parentPid = process.parentPid) :
    PidSystem.Orderly ⟨files, s.processes.set p process'⟩ := by
  apply orderly.sole isProcess alone holds _ (Or.inl parent)
  intro other q isLocked
  rw [locks] at isLocked
  by_cases here : other = inode
  · subst here
    rw [Function.update_self] at isLocked
    exact ⟨(Option.some.inj isLocked).symm, isFile⟩
  · rw [Function.update_of_ne here, orderly.unlocked isProcess alone noLock] at isLocked
    cases isLocked

theorem PidSystem.Orderly.call (orderly : s.Orderly) (isProcess : s.processes[p]? = some process)
    (quiet : process.passes s.files p →
      (∀ q (other : PidProcess), q ≠ p → s.processes[q]? = some other →
        other.unsettled = false) ∧
      (process.pc = .checking → process.fd = s.files.path))
    (calls : process.call s.files p = some (files, process')) :
    PidSystem.Orderly ⟨files, s.processes.set p process'⟩ := by
  have activeAlone := orderly.alone isProcess
  have holds := orderly.holds p process isProcess
  unfold PidProcess.call at calls
  cases isPc : process.pc with
  | starting =>
      simp only [isPc, Option.some.injEq, Prod.mk.injEq] at calls
      obtain ⟨rfl, rfl⟩ := calls
      have noLock : process.lockedFile p = none := by simp only [PidProcess.lockedFile, isPc]
      cases isPath : s.files.path with
      | some inode =>
          exact orderly.idle isProcess rfl rfl rfl (orderly.lockless isProcess noLock) rfl
      | none =>
          obtain ⟨settled, -⟩ := quiet (Or.inl ⟨isPc, isPath⟩)
          have alone := orderly.alone_of_settled settled
            (fun q inode _ isSome => by rw [isPath] at isSome; cases isSome)
          exact orderly.sole_unlocked isProcess alone
            (PidFiles.holds_of_unsettled _ (Or.inl rfl))
            (orderly.unlocked isProcess alone noLock) rfl
  | opening =>
      have noLock : process.lockedFile p = none := by simp only [PidProcess.lockedFile, isPc]
      have lockless := orderly.lockless isProcess noLock
      simp only [isPc] at calls
      split at calls
      · cases calls
        exact orderly.idle isProcess rfl rfl rfl lockless rfl
      · cases calls
        exact orderly.idle isProcess rfl rfl rfl (fun _ _ => PidFiles.leave_locks _ _ _ _) rfl
  | checking =>
      have noLock : process.lockedFile p = none := by simp only [PidProcess.lockedFile, isPc]
      simp only [isPc, Option.bind_eq_bind, Option.bind_eq_some_iff] at calls
      obtain ⟨inode, isFd, calls⟩ := calls
      cases granted : (s.files.setLock p inode).2 with
      | false =>
          have same := PidFiles.setLock_denied granted
          cases calls
          rw [granted, same]
          exact orderly.idle isProcess rfl rfl rfl (orderly.lockless isProcess noLock) rfl
      | true =>
          obtain ⟨free, files'⟩ := PidFiles.setLock_granted granted
          obtain ⟨settled, samePath⟩ := quiet (Or.inr ⟨isPc, inode, isFd, granted⟩)
          have isPath : s.files.path = some inode := (samePath isPc).symm.trans isFd
          have alone := orderly.alone_of_settled settled (by
            intro q other apart isOther isLocked
            cases isPath.symm.trans isOther
            rcases free with none | own
            · cases none.symm.trans isLocked
            · exact apart (Option.some.inj (isLocked.symm.trans own)))
          have isLocked : (Function.update s.files.locks inode (some p)) inode = some p :=
            Function.update_self _ _ _
          cases calls
          rw [granted, files']
          refine orderly.sole_locked isProcess alone noLock ⟨?_, ?_, ?_, ?_⟩ isFd rfl rfl
          · intro other isFile
            cases isFd.symm.trans isFile
            exact ⟨isPath, isLocked⟩
          · intro _
            exact Option.isSome_iff_exists.mpr ⟨inode, isFd⟩
          · rintro (isLocking | isWriting)
            · cases isLocking
            · cases isWriting
          · rintro (isRunning | isUnlocking)
            · cases isRunning
            · cases isUnlocking
  | closing locked =>
      simp only [isPc, Option.bind_eq_bind, Option.bind_eq_some_iff] at calls
      obtain ⟨inode, isFd, calls⟩ := calls
      cases locked with
      | true =>
          cases calls
          have alone := activeAlone (by simp only [PidProcess.active, isPc])
          have isFile : process.lockedFile p = some inode := by
            simpa only [PidProcess.lockedFile, isPc, if_true] using isFd
          exact orderly.sole_unlocked isProcess alone
            (PidFiles.holds_of_unsettled _ (Or.inl rfl))
            (orderly.unlocked_after isProcess alone isFile) rfl
      | false =>
          have noLock : process.lockedFile p = none := by
            simp only [PidProcess.lockedFile, isPc, Bool.false_eq_true, if_false]
          have lockless := orderly.lockless isProcess noLock
          cases calls
          have path : ((s.files.unlock p inode).leave p).path = s.files.path :=
            s.files.unlock_path p inode
          have contents : ((s.files.unlock p inode).leave p).contents = s.files.contents :=
            s.files.unlock_contents p inode
          refine orderly.idle isProcess rfl path contents ?_ rfl
          intro other q
          rw [PidFiles.leave_locks, PidFiles.unlock_locks]
          refine ⟨fun isLocked => ⟨isLocked.1.1, isLocked.2⟩, fun isLocked => ⟨⟨isLocked.1, ?_⟩,
            isLocked.2⟩⟩
          exact fun both => isLocked.2 both.2
  | creating =>
      have noLock : process.lockedFile p = none := by simp only [PidProcess.lockedFile, isPc]
      have alone := activeAlone (by simp only [PidProcess.active, isPc])
      obtain ⟨isPath, isEmpty, sameLocks⟩ := s.files.create_spec
      simp only [isPc] at calls
      cases calls
      refine orderly.sole_unlocked isProcess alone ⟨nofun, nofun, fun _ => ?_, ?_⟩ ?_ rfl
      · exact ⟨_, rfl, isPath, isEmpty⟩
      · rintro (isRunning | isUnlocking)
        · cases isRunning
        · cases isUnlocking
      · rw [sameLocks]
        exact orderly.unlocked isProcess alone noLock
  | locking =>
      have noLock : process.lockedFile p = none := by simp only [PidProcess.lockedFile, isPc]
      have active : process.active p = true := by simp only [PidProcess.active, isPc]
      have alone := activeAlone active
      simp only [isPc, Option.bind_eq_bind, Option.bind_eq_some_iff] at calls
      obtain ⟨inode, isOpen, calls⟩ := calls
      obtain ⟨other, isOpen', isPath, isEmpty⟩ := (holds active).created (Or.inl isPc)
      cases isOpen.symm.trans isOpen'
      have free := orderly.unlocked isProcess alone noLock inode
      have granted : s.files.setLock p inode =
          ({ s.files with locks := Function.update s.files.locks inode (some p) }, true) := by
        rw [PidFiles.setLock, if_pos (Or.inl free)]
      cases calls
      rw [granted]
      refine orderly.sole_locked isProcess alone noLock ⟨?_, nofun, fun _ => ?_, ?_⟩ isOpen rfl
        rfl
      · intro other isFile
        cases isOpen.symm.trans isFile
        exact ⟨isPath, Function.update_self _ _ _⟩
      · exact ⟨inode, isOpen, isPath, isEmpty⟩
      · rintro (isRunning | isUnlocking)
        · cases isRunning
        · cases isUnlocking
  | writing =>
      have active : process.active p = true := by simp only [PidProcess.active, isPc]
      have alone := activeAlone active
      simp only [isPc, Option.bind_eq_bind, Option.bind_eq_some_iff] at calls
      obtain ⟨inode, isOpen, calls⟩ := calls
      obtain ⟨other, isOpen', isPath, isEmpty⟩ := (holds active).created (Or.inr isPc)
      cases isOpen.symm.trans isOpen'
      have isFile : process.lockedFile p = some inode := by
        simpa only [PidProcess.lockedFile, isPc] using isOpen
      have isLocked := ((holds active).locked inode isFile).2
      cases calls
      have isFile' : PidProcess.lockedFile { process.goTo .running with parentPid := some p } p =
          some inode := by
        simpa only [PidProcess.lockedFile, PidProcess.goTo, if_true] using isOpen
      refine orderly.sole isProcess alone ⟨?_, nofun, ?_, fun _ => ?_⟩ ?_ (Or.inr rfl)
      · intro other isFile''
        cases isFile'.symm.trans isFile''
        exact ⟨isPath, isLocked⟩
      · rintro (isLocking | isWriting)
        · cases isLocking
        · cases isWriting
      · refine ⟨inode, isOpen, ?_⟩
        change Function.update s.files.contents inode _ inode = pidText p
        rw [Function.update_self, isEmpty, List.drop_nil, List.append_nil]
      · intro other q wasLocked
        obtain ⟨rfl, locked⟩ := orderly.locks_of_alone isProcess alone wasLocked
        cases isFile.symm.trans locked
        exact ⟨rfl, isFile'⟩
  | unlocking =>
      have alone := activeAlone (by simp only [PidProcess.active, isPc])
      simp only [isPc, Option.bind_eq_bind, Option.bind_eq_some_iff] at calls
      obtain ⟨inode, isOpen, calls⟩ := calls
      have isFile : process.lockedFile p = some inode := by
        simpa only [PidProcess.lockedFile, isPc] using isOpen
      cases calls
      exact orderly.sole_unlocked isProcess alone
        (PidFiles.holds_of_unsettled _ (Or.inr (Or.inl rfl)))
        (orderly.unlocked_after isProcess alone isFile) rfl
  | dropping =>
      have noLock : process.lockedFile p = none := by simp only [PidProcess.lockedFile, isPc]
      have alone := activeAlone (by simp only [PidProcess.active, isPc])
      simp only [isPc, Option.bind_eq_bind, Option.bind_eq_some_iff] at calls
      obtain ⟨inode, isOpen, calls⟩ := calls
      cases calls
      refine orderly.sole_unlocked isProcess alone
        (PidFiles.holds_of_unsettled _ (Or.inr (Or.inr rfl))) ?_ rfl
      intro other
      rw [Option.eq_none_iff_forall_ne_some]
      intro q isLocked
      rw [PidFiles.unlock_locks, orderly.unlocked isProcess alone noLock] at isLocked
      cases isLocked.1
  | unlinking =>
      have alone := activeAlone (by simp only [PidProcess.active, isPc])
      simp only [isPc] at calls
      cases calls
      refine orderly.set isProcess nofun nofun ?_ ?_ (fun _ => Or.inl)
      · intro q other apart isOther active
        rw [alone q other apart isOther] at active
        cases active
      · intro inode q isLocked
        exact Or.inr ((PidFiles.leave_locks _ _ _ _).mp isLocked).symm
  | running | gone => simp only [isPc, reduceCtorEq] at calls

theorem PidSystem.Orderly.stop (orderly : s.Orderly) (isProcess : s.processes[p]? = some process)
    (running : process.pc = .running) (isParent : process.parentPid = some p) :
    PidSystem.Orderly ⟨s.files, s.processes.set p (process.goTo .unlocking)⟩ := by
  have active : process.active p = true := by
    simp only [PidProcess.active, running, isParent, beq_self_eq_true]
  have holds := orderly.holds p process isProcess active
  have sameFile : (process.goTo .unlocking).lockedFile p = process.lockedFile p := by
    simp only [PidProcess.lockedFile, PidProcess.goTo, running, isParent, if_true]
  refine orderly.sole isProcess (orderly.alone isProcess active) ⟨?_, nofun, ?_, fun _ => ?_⟩ ?_
    (Or.inl rfl)
  · rw [sameFile]
    exact holds.locked
  · rintro (isLocking | isWriting)
    · cases isLocking
    · cases isWriting
  · exact holds.written (Or.inl running)
  · rw [sameFile]
    intro inode q isLocked
    exact orderly.locks_of_alone isProcess (orderly.alone isProcess active) isLocked

theorem PidSystem.Orderly.gone (orderly : s.Orderly)
    (isProcess : s.processes[p]? = some process) :
    PidSystem.Orderly ⟨s.files.leave p, s.processes.set p (process.goTo .gone)⟩ :=
  orderly.idle isProcess rfl rfl rfl (fun _ _ => PidFiles.leave_locks _ _ _ _) rfl

theorem PidSystem.Orderly.step (orderly : s.Orderly) {action : PidAction} {s' : PidSystem}
    (quiet : s.Quiet p action) (step : s.step p action = some s') : s'.Orderly := by
  unfold PidSystem.step at step
  cases action with
  | call =>
      simp only [Option.bind_eq_bind, Option.bind_eq_some_iff] at step
      obtain ⟨process, isProcess, ⟨files, process'⟩, calls, isNext⟩ := step
      cases isNext
      exact orderly.call isProcess (quiet rfl process isProcess) calls
  | fork =>
      simp only [Option.bind_eq_bind, Option.bind_eq_some_iff] at step
      obtain ⟨process, isProcess, isNext⟩ := step
      split at isNext
      · next running =>
          cases isNext
          exact orderly.fork isProcess running
      · cases isNext
  | exit =>
      simp only [Option.bind_eq_bind, Option.bind_eq_some_iff] at step
      obtain ⟨process, isProcess, isNext⟩ := step
      split at isNext
      · next running =>
          split at isNext
          · next isParent =>
              cases isNext
              exact orderly.stop isProcess running isParent
          · cases isNext
            exact orderly.gone isProcess
      · cases isNext
  | kill =>
      simp only [Option.bind_eq_bind, Option.bind_eq_some_iff] at step
      obtain ⟨process, isProcess, isNext⟩ := step
      cases isNext
      exact orderly.gone isProcess

theorem PidInitial.idle (initial : PidInitial s) (isProcess : s.processes[p]? = some process) :
    process.active p = false := by
  have isStarting := (initial.starting process (List.mem_of_getElem? isProcess)).1
  simp only [PidProcess.active, isStarting]

theorem PidInitial.orderly (initial : PidInitial s) : s.Orderly := by
  constructor
  case one =>
    intro p q process other isProcess _ active _
    rw [initial.idle isProcess] at active
    cases active
  case holds =>
    intro p process isProcess active
    rw [initial.idle isProcess] at active
    cases active
  case locks =>
    intro inode p isLocked
    rw [initial.unlocked] at isLocked
    cases isLocked
  case parents =>
    intro process isProcess p isParent
    rw [(initial.starting process isProcess).2] at isParent
    cases isParent

theorem PidRun.orderly {initial : PidSystem} (run : PidRun initial s)
    (isInitial : PidInitial initial) : s.Orderly := by
  induction run with
  | start => exact isInitial.orderly
  | step _ quiet step ih => exact ih.step quiet step

theorem PidSystem.Daemon.active (daemon : s.Daemon p) : ∃ process : PidProcess,
    s.processes[p]? = some process ∧ process.pc = .running ∧ process.parentPid = some p ∧
      process.active p = true := by
  obtain ⟨process, isProcess, running, isParent⟩ := daemon
  refine ⟨process, isProcess, running, isParent, ?_⟩
  simp only [PidProcess.active, running, isParent, beq_self_eq_true]

end Invariant

/-! ## Starting alone -/

section Starting

variable {initial s : PidSystem} {files files' : PidFiles} {processes : List PidProcess}
  {p n : Nat} {process process' : PidProcess}

theorem PidSystem.step_call (inRange : p < processes.length)
    (calls : process.call files p = some (files', process')) :
    PidSystem.step ⟨files, processes.set p process⟩ p .call =
      some ⟨files', processes.set p process'⟩ := by
  simp only [PidSystem.step, List.getElem?_set_self inRange, Option.bind_eq_bind,
    Option.bind_some, calls, List.set_set]

theorem PidSystem.calls_succ (inRange : p < processes.length)
    (calls : process.call files p = some (files', process')) :
    PidSystem.calls ⟨files, processes.set p process⟩ p (n + 1) =
      PidSystem.calls ⟨files', processes.set p process'⟩ p n := by
  rw [PidSystem.calls, step_call inRange calls]
  rfl

theorem PidSystem.calls_creating (files : PidFiles) (inRange : p < processes.length)
    (process : PidProcess) (isPc : process.pc = .creating) :
    ∃ s', PidSystem.calls ⟨files, processes.set p process⟩ p 3 = some s' ∧ s'.Daemon p := by
  have creates : process.call files p =
      some (files.create.1,
        { process.goTo .locking with fdpid := some files.create.2 }) := by
    simp only [PidProcess.call, isPc]
  rw [calls_succ inRange creates, calls_succ inRange rfl, calls_succ inRange rfl]
  exact ⟨_, rfl, _, List.getElem?_set_self inRange, rfl, rfl⟩

/-- The file of the check is the PID file as `open` finds it. -/
theorem PidProcess.call_checking
    (calls : process.call files p = some (files', process')) (checks : process'.pc = .checking) :
    process'.fd = files'.path := by
  unfold PidProcess.call at calls
  cases isPc : process.pc with
  | opening =>
      simp only [isPc] at calls
      split at calls
      · next isPath =>
          cases calls
          exact isPath.symm
      · cases calls
        cases checks
  | starting =>
      simp only [isPc] at calls
      cases calls
      simp only [PidProcess.goTo] at checks
      split at checks <;> cases checks
  | creating | unlinking =>
      simp only [isPc] at calls
      cases calls
      cases checks
  | closing locked =>
      cases locked <;> simp only [isPc, Option.bind_eq_bind, Option.bind_eq_some_iff] at calls <;>
        obtain ⟨_, _, calls⟩ := calls <;> cases calls <;> cases checks
  | checking | locking | writing | unlocking | dropping =>
      simp only [isPc, Option.bind_eq_bind, Option.bind_eq_some_iff] at calls
      obtain ⟨_, _, calls⟩ := calls
      cases calls
      cases checks
  | running | gone => simp only [isPc, reduceCtorEq] at calls

/-- Calls of a process are quiet while nobody else is active. -/
theorem PidRun.calls (run : PidRun initial s) (alone : s.Alone p)
    (isProcess : s.processes[p]? = some process)
    (same : process.pc = .checking → process.fd = s.files.path) {s' : PidSystem}
    (calls : s.calls p n = some s') :
    PidRun initial s' ∧ ∀ q, q ≠ p → s'.processes[q]? = s.processes[q]? := by
  induction n generalizing s process with
  | zero =>
      cases calls
      exact ⟨run, fun _ _ => rfl⟩
  | succ n ih =>
      rw [PidSystem.calls, Option.bind_eq_bind, Option.bind_eq_some_iff] at calls
      obtain ⟨next, step, calls⟩ := calls
      have quiet : s.Quiet p .call := by
        intro _ other isOther _
        cases isProcess.symm.trans isOther
        refine ⟨fun q other apart isOther => ?_, same⟩
        have idle := alone q other apart isOther
        unfold PidProcess.active at idle
        unfold PidProcess.unsettled
        split at idle <;> simp_all
      have inRange := (List.getElem?_eq_some_iff.mp isProcess).1
      have step' := step
      simp only [PidSystem.step, isProcess, Option.bind_eq_bind, Option.bind_some,
        Option.bind_eq_some_iff] at step
      obtain ⟨⟨files, process'⟩, call, isNext⟩ := step
      cases isNext
      have others (q : Nat) (apart : q ≠ p) :
          (s.processes.set p process')[q]? = s.processes[q]? :=
        List.getElem?_set_ne (Ne.symm apart)
      obtain ⟨run', kept⟩ := ih (run.step quiet step')
        (fun q other apart isOther => alone q other apart ((others q apart).symm.trans isOther))
        (List.getElem?_set_self inRange) (PidProcess.call_checking call) calls
      exact ⟨run', fun q apart => (kept q apart).trans (others q apart)⟩

theorem PidSystem.calls_starting (inRange : p < processes.length) {inode : Nat}
    (isPc : process.pc = .starting) (isPath : files.path = some inode) :
    PidSystem.calls ⟨files, processes.set p process⟩ p (n + 2) =
      PidSystem.calls ⟨files, processes.set p
        { process.goTo .checking with fd := some inode }⟩ p n := by
  have checks : process.call files p = some (files, process.goTo .opening) := by
    simp only [PidProcess.call, isPc, isPath, Option.isSome_some, if_true]
  have opens : (process.goTo .opening).call files p =
      some (files, { process.goTo .checking with fd := some inode }) := by
    simp only [PidProcess.call, PidProcess.goTo, isPath]
  rw [calls_succ inRange checks, calls_succ inRange opens]

theorem PidSystem.Orderly.leave_of_lockless (orderly : s.Orderly)
    (isProcess : s.processes[p]? = some process) (noLock : process.lockedFile p = none) :
    s.files.leave p = s.files := by
  have locks : (s.files.leave p).locks = s.files.locks := by
    funext inode
    apply Option.ext
    intro q
    rw [PidFiles.leave_locks]
    exact (orderly.lockless isProcess noLock inode q).symm
  exact congrArg (fun locks => { s.files with locks }) locks

theorem PidSystem.set_process (isProcess : s.processes[p]? = some process) :
    s = ⟨s.files, s.processes.set p process⟩ := by
  obtain ⟨_, rfl⟩ := List.getElem?_eq_some_iff.mp isProcess
  rw [List.set_getElem_self]

/-- A process that finds the PID file locked ends, and nothing has changed. -/
theorem PidSystem.Orderly.calls_locked (orderly : s.Orderly)
    (isProcess : s.processes[p]? = some process) (isStarting : process.pc = .starting)
    {inode q : Nat} (isPath : s.files.path = some inode)
    (isLocked : s.files.locks inode = some q) (apart : q ≠ p) :
    s.calls p 4 =
      some ⟨s.files, s.processes.set p { process with pc := .gone, fd := s.files.path }⟩ := by
  have inRange := (List.getElem?_eq_some_iff.mp isProcess).1
  have denied : s.files.setLock p inode = (s.files, false) := by
    rw [PidFiles.setLock, if_neg]
    rw [isLocked]
    simp [apart]
  have tries : PidProcess.call { process.goTo .checking with fd := some inode } s.files p =
      some (s.files, { process.goTo (.closing false) with fd := some inode }) := by
    simp only [PidProcess.call, PidProcess.goTo, Option.bind_eq_bind, Option.bind_some, denied]
  have kept : (s.files.unlock p inode).leave p = s.files := by
    have unlocks : s.files.unlock p inode = s.files := by
      rw [PidFiles.unlock, if_neg]
      rw [isLocked]
      simp [apart]
    have noLock : process.lockedFile p = none := by
      simp only [PidProcess.lockedFile, isStarting]
    rw [unlocks]
    exact orderly.leave_of_lockless isProcess noLock
  have ends : PidProcess.call { process.goTo (.closing false) with fd := some inode }
      s.files p = some (s.files, { process.goTo .gone with fd := some inode }) := by
    simp only [PidProcess.call, PidProcess.goTo, Option.bind_eq_bind, Option.bind_some,
      Bool.false_eq_true, if_false, kept]
  calc s.calls p 4
      = PidSystem.calls ⟨s.files, s.processes.set p process⟩ p 4 := by
        rw [← set_process isProcess]
    _ = PidSystem.calls ⟨s.files, s.processes.set p
          { process.goTo .checking with fd := some inode }⟩ p 2 :=
        calls_starting inRange isStarting isPath
    _ = PidSystem.calls ⟨s.files, s.processes.set p
          { process.goTo (.closing false) with fd := some inode }⟩ p 1 :=
        calls_succ inRange tries
    _ = PidSystem.calls ⟨s.files, s.processes.set p
          { process.goTo .gone with fd := some inode }⟩ p 0 :=
        calls_succ inRange ends
    _ = _ := by
        rw [isPath]
        rfl

/-- A process that finds no PID file, or one without a lock, becomes the daemon. -/
theorem PidSystem.Orderly.calls_alone (orderly : s.Orderly)
    (isProcess : s.processes[p]? = some process) (isStarting : process.pc = .starting)
    (alone : s.Alone p) : ∃ n s', s.calls p n = some s' ∧ s'.Daemon p := by
  have inRange := (List.getElem?_eq_some_iff.mp isProcess).1
  cases isPath : s.files.path with
  | none =>
      have checks : process.call s.files p = some (s.files, process.goTo .creating) := by
        simp only [PidProcess.call, isStarting, isPath, Option.isSome_none, Bool.false_eq_true,
          if_false]
      obtain ⟨s', calls, daemon⟩ :=
        calls_creating s.files inRange (process.goTo .creating) rfl
      refine ⟨4, s', ?_, daemon⟩
      calc s.calls p 4
          = PidSystem.calls ⟨s.files, s.processes.set p process⟩ p 4 := by
            rw [← set_process isProcess]
        _ = PidSystem.calls ⟨s.files, s.processes.set p (process.goTo .creating)⟩ p 3 :=
            calls_succ inRange checks
        _ = some s' := calls
  | some inode =>
      have noLock : process.lockedFile p = none := by
        simp only [PidProcess.lockedFile, isStarting]
      have free := orderly.unlocked isProcess alone noLock inode
      let locked : PidFiles :=
        { s.files with locks := Function.update s.files.locks inode (some p) }
      have granted : s.files.setLock p inode = (locked, true) := by
        rw [PidFiles.setLock, if_pos (Or.inl free)]
      have takes : PidProcess.call { process.goTo .checking with fd := some inode } s.files p =
          some (locked, { process.goTo (.closing true) with fd := some inode }) := by
        simp only [PidProcess.call, PidProcess.goTo, Option.bind_eq_bind, Option.bind_some,
          granted]
      have closes : PidProcess.call { process.goTo (.closing true) with fd := some inode }
          locked p =
            some (locked.unlock p inode, { process.goTo .creating with fd := some inode }) := by
        simp only [PidProcess.call, PidProcess.goTo, Option.bind_eq_bind, Option.bind_some,
          if_true]
      obtain ⟨s', calls, daemon⟩ := calls_creating (locked.unlock p inode) inRange
        { process.goTo .creating with fd := some inode } rfl
      refine ⟨7, s', ?_, daemon⟩
      calc s.calls p 7
          = PidSystem.calls ⟨s.files, s.processes.set p process⟩ p 7 := by
            rw [← set_process isProcess]
        _ = PidSystem.calls ⟨s.files, s.processes.set p
              { process.goTo .checking with fd := some inode }⟩ p 5 :=
            calls_starting inRange isStarting isPath
        _ = PidSystem.calls ⟨locked, s.processes.set p
              { process.goTo (.closing true) with fd := some inode }⟩ p 4 :=
            calls_succ inRange takes
        _ = PidSystem.calls ⟨locked.unlock p inode, s.processes.set p
              { process.goTo .creating with fd := some inode }⟩ p 3 :=
            calls_succ inRange closes
        _ = some s' := calls

theorem PidSystem.Orderly.daemon_file (orderly : s.Orderly) (daemon : s.Daemon p) :
    ∃ inode, s.files.path = some inode ∧ s.files.locks inode = some p ∧
      s.files.contents inode = pidText p := by
  obtain ⟨process, isProcess, running, isParent, active⟩ := daemon.active
  have holds := orderly.holds p process isProcess active
  obtain ⟨inode, isOpen, isText⟩ := holds.written (Or.inl running)
  have isFile : process.lockedFile p = some inode := by
    simpa only [PidProcess.lockedFile, running, isParent, if_true] using isOpen
  obtain ⟨isPath, isLocked⟩ := holds.locked inode isFile
  exact ⟨inode, isPath, isLocked, isText⟩

end Starting

/-! ## One daemon -/

/-- There is one daemon at most, and the PID file is locked by it and has its number. -/
theorem pidFile_exclusive {initial s : PidSystem} (isInitial : PidInitial initial)
    (run : PidRun initial s) {p : Nat} (daemon : s.Daemon p) :
    (∃ inode, s.files.path = some inode ∧ s.files.locks inode = some p ∧
      s.files.contents inode = pidText p) ∧ ∀ q, s.Daemon q → q = p := by
  have orderly := run.orderly isInitial
  refine ⟨orderly.daemon_file daemon, fun q daemon' => ?_⟩
  obtain ⟨process, isProcess, -, -, active⟩ := daemon.active
  obtain ⟨other, isOther, -, -, active'⟩ := daemon'.active
  exact orderly.one q p other process isOther isProcess active' active

def twoStarting : PidSystem :=
  ⟨⟨none, 0, fun _ => [], fun _ => none⟩,
    [⟨.starting, none, none, none⟩, ⟨.starting, none, none, none⟩]⟩

theorem twoStarting_initial : PidInitial twoStarting where
  starting := by decide
  unlocked _ := rfl

theorem twoStarting_first : ∃ s, twoStarting.calls 0 4 = some s ∧ PidRun twoStarting s ∧
    s.Daemon 0 ∧ s.processes[1]? = some ⟨.starting, none, none, none⟩ := by
  obtain ⟨s, calls, daemon⟩ : ∃ s, twoStarting.calls 0 4 = some s ∧ s.Daemon 0 :=
    ⟨_, rfl, _, rfl, rfl, rfl⟩
  obtain ⟨run, others⟩ := PidRun.start.calls (p := 0)
    (fun _ _ _ isOther => twoStarting_initial.idle isOther) rfl nofun calls
  exact ⟨s, calls, run, daemon, others 1 (by decide)⟩

theorem pidFile_exclusive_first : ∃ s, twoStarting.calls 0 4 = some s ∧ s.Daemon 0 ∧
    (∃ inode, s.files.path = some inode ∧ s.files.contents inode = ['0']) ∧ ¬ s.Daemon 1 := by
  obtain ⟨s, calls, run, daemon, -⟩ := twoStarting_first
  obtain ⟨⟨inode, isPath, -, isText⟩, sole⟩ := pidFile_exclusive twoStarting_initial run daemon
  exact ⟨s, calls, daemon, ⟨inode, isPath, isText⟩, fun other => absurd (sole 1 other) (by decide)⟩

/-- A process that starts alone becomes the daemon where there is none, whatever file was
left, and ends with nothing changed where there is one. -/
theorem pidFile_starts {initial s : PidSystem} {p : Nat} {process : PidProcess}
    (isInitial : PidInitial initial) (run : PidRun initial s)
    (isProcess : s.processes[p]? = some process) (isStarting : process.pc = .starting) :
    (∀ q, s.Daemon q → s.calls p 4 =
      some ⟨s.files, s.processes.set p { process with pc := .gone, fd := s.files.path }⟩) ∧
    (s.Alone p → ∃ n s', s.calls p n = some s' ∧ PidRun initial s' ∧ s'.Daemon p ∧
      ∀ q, q ≠ p → s'.processes[q]? = s.processes[q]?) := by
  have orderly := run.orderly isInitial
  constructor
  · intro q daemon
    obtain ⟨inode, isPath, isLocked, -⟩ := orderly.daemon_file daemon
    refine orderly.calls_locked isProcess isStarting isPath isLocked ?_
    rintro rfl
    obtain ⟨other, isOther, running, -⟩ := daemon
    cases isProcess.symm.trans isOther
    cases isStarting.symm.trans running
  · intro alone
    obtain ⟨n, s', calls, daemon⟩ := orderly.calls_alone isProcess isStarting alone
    obtain ⟨run', others⟩ := run.calls alone isProcess
      (fun isChecking => by cases isStarting.symm.trans isChecking) calls
    exact ⟨n, s', calls, run', daemon, others⟩

theorem pidFile_starts_second : ∃ s s', twoStarting.calls 0 4 = some s ∧ s.Daemon 0 ∧
    s.calls 1 4 = some s' ∧ s'.files = s.files := by
  obtain ⟨s, calls, run, daemon, isSecond⟩ := twoStarting_first
  have ends := (pidFile_starts twoStarting_initial run isSecond rfl).1 0 daemon
  exact ⟨s, _, calls, daemon, ends, rfl⟩

end NtShm
