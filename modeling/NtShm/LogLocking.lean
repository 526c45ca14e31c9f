import NtShm.UndoSemaphores
import Mathlib.Data.Finset.Insert
import Mathlib.Data.Finset.Lattice.Basic

/-!
# Logging among processes and signals

`lock_log` blocks signals, so that no handler that logs interrupts what holds the lock, and
then takes the semaphore of the log.  Any process may be interrupted at any point by a
signal that it does not block, and may be killed at any point.
-/

namespace NtShm

/-- The signals that the program handles or blocks. -/
inductive Signal
  | hup | int | quit | ill | fpe | segv | bus | alrm | term | usr1 | usr2 | pipe | chld
  deriving DecidableEq

/-- The mask of `lock_log`. -/
def logMask : Finset Signal := {.usr1, .usr2, .term, .int, .quit, .hup}

inductive LogPc
  /-- Outside of the log's functions. -/
  | running
  /-- Before `sigprocmask(SIG_BLOCK, &mask, &orig_mask)`. -/
  | blocking
  /-- At the `semop` of `__nt_mutex_lock`. -/
  | locking
  /-- Between `LOCK_LOG` and `UNLOCK_LOG`. -/
  | writing
  /-- Before `sigprocmask(SIG_SETMASK, &orig_mask, NULL)`. -/
  | restoring
  /-- Before a handler's return. -/
  | returning
  /-- Before `exit`. -/
  | exiting
  deriving DecidableEq

namespace LogPc

/-- `orig_mask` is in use. -/
def busy : LogPc → Bool
  | locking | writing | restoring => true
  | _ => false

def logging (pc : LogPc) : Bool := pc == blocking || pc.busy

end LogPc

/-- The program, or a handler that interrupted what is below it. -/
structure LogFrame where
  /-- The signal that is handled. -/
  origin : Option Signal
  /-- The mask that the handler's return restores. -/
  saved : Finset Signal
  pc : LogPc
  /-- What follows the call of the log. -/
  next : LogPc

structure LogProcess where
  alive : Bool
  /-- `SIG_PARENT_PROCESS`. -/
  parent : Bool
  /-- `sig_exiting`. -/
  sigExiting : Bool
  mask : Finset Signal
  /-- `orig_mask`. -/
  origMask : Finset Signal
  /-- The function that runs. -/
  top : LogFrame
  /-- The functions that were interrupted, the last one first. -/
  below : List LogFrame

structure LogSystem where
  sem : UndoSemaphore
  processes : List LogProcess

/-- Where a handler begins, what follows its call of the log, and `sig_exiting`. -/
structure HandlerStart where
  pc : LogPc
  next : LogPc
  sigExiting : Bool

namespace LogProcess

/-- `terminate_signal_handler`. -/
def terminateSignalHandler (process : LogProcess) (sig : Signal) : HandlerStart :=
  if !process.parent then
    ⟨.blocking, if sig = .int then .returning else .exiting, process.sigExiting⟩
  else if !process.sigExiting then ⟨.blocking, .exiting, true⟩
  else ⟨.returning, .returning, process.sigExiting⟩

/-- `child_signal_handler`, which logs nothing. -/
def childSignalHandler (process : LogProcess) : HandlerStart :=
  if !process.parent then ⟨.exiting, .exiting, process.sigExiting⟩
  else if !process.sigExiting then ⟨.exiting, .exiting, true⟩
  else ⟨.returning, .returning, process.sigExiting⟩

/-- The handlers that `daemon_start` installs.  `SIGHUP` is ignored, and `SIGUSR2` kills. -/
def handle (process : LogProcess) : Signal → Option HandlerStart
  | .int => some (process.terminateSignalHandler .int)
  | .quit => some (process.terminateSignalHandler .quit)
  | .term => some (process.terminateSignalHandler .term)
  -- `fatal_signal_handler`
  | .ill | .fpe | .segv | .bus => some ⟨.exiting, .exiting, process.sigExiting⟩
  | .chld => some process.childSignalHandler
  | .alrm | .usr1 | .pipe => some ⟨.returning, .returning, process.sigExiting⟩
  | .hup | .usr2 => none

def goTo (process : LogProcess) (pc : LogPc) : LogProcess :=
  { process with top := { process.top with pc := pc } }

end LogProcess

inductive LogAction
  /-- The program calls `nt_log` or `nt_handle_log`. -/
  | call
  /-- The message is not one that takes the lock. -/
  | skip
  | block
  /-- `semop` takes the semaphore.  Where a signal interrupts it, it is called again. -/
  | lock
  | unlock
  | restore
  | deliver (sig : Signal)
  | ret
  | exit
  /-- The process is killed, or `exit` is called elsewhere. -/
  | kill
  | fork
  deriving DecidableEq

def LogProcess.act (process : LogProcess) : LogAction → Option LogProcess
  | .call => if process.top.pc = .running then some (process.goTo .blocking) else none
  | .skip => if process.top.pc = .blocking then some (process.goTo process.top.next) else none
  | .block =>
      if process.top.pc = .blocking then
        some { process.goTo .locking with
          mask := process.mask ∪ logMask, origMask := process.mask }
      else none
  | .restore =>
      if process.top.pc = .restoring then
        some { process.goTo process.top.next with mask := process.origMask }
      else none
  | .deliver sig =>
      if sig ∈ process.mask then none
      else (process.handle sig).map fun start =>
        { process with
          sigExiting := start.sigExiting
          mask := insert sig process.mask
          top := ⟨some sig, process.mask, start.pc, start.next⟩
          below := process.top :: process.below }
  | .ret =>
      match process.below with
      | [] => none
      | outer :: below =>
          if process.top.pc = .returning then
            some { process with mask := process.top.saved, top := outer, below := below }
          else none
  | _ => none

def LogSystem.step (s : LogSystem) (p : Nat) (action : LogAction) : Option LogSystem := do
  let process ← s.processes[p]?
  if process.alive then
    match action with
    | .lock =>
        if process.top.pc = .locking then
          return ⟨← s.sem.wait p, s.processes.set p (process.goTo .writing)⟩
        else none
    | .unlock =>
        if process.top.pc = .writing then
          return ⟨s.sem.post p, s.processes.set p (process.goTo .restoring)⟩
        else none
    | .exit =>
        if process.top.pc = .exiting then
          return ⟨s.sem.leave p, s.processes.set p { process with alive := false }⟩
        else none
    | .kill => return ⟨s.sem.leave p, s.processes.set p { process with alive := false }⟩
    | .fork =>
        if process.top.pc = .running then
          return ⟨s.sem.join, s.processes ++ [{ process with parent := false }]⟩
        else none
    | action => return ⟨s.sem, s.processes.set p (← process.act action)⟩
  else none

def LogSystem.run (s : LogSystem) (actions : List (Nat × LogAction)) : Option LogSystem :=
  actions.foldlM (fun s action => s.step action.1 action.2) s

def initialLog (mask : Finset Signal) : LogSystem where
  sem := ⟨1, [0]⟩
  processes := [{
    alive := true
    parent := true
    sigExiting := false
    mask := mask
    origMask := ∅
    top := ⟨none, ∅, .running, .running⟩
    below := [] }]

/-! ## What holds of a process -/

namespace LogFrame

/-- The mask of a function outside of the log. -/
def base (frame : LogFrame) (initial : Finset Signal) : Finset Signal :=
  match frame.origin with
  | none => initial
  | some sig => insert sig frame.saved

/-- The mask of a function, which the log blocks more of. -/
def maskNow (frame : LogFrame) (initial : Finset Signal) : Finset Signal :=
  if frame.pc.busy then frame.base initial ∪ logMask else frame.base initial

structure Sound (frame : LogFrame) (initial origMask mask : Finset Signal) : Prop where
  mask : mask = frame.maskNow initial
  orig : frame.pc.busy = true → origMask = frame.base initial

structure IsHandler (frame : LogFrame) (sig : Signal) : Prop where
  origin : frame.origin = some sig
  delivered : sig ∉ frame.saved
  logs : frame.pc.logging = true → sig ∈ logMask
  notProgram : frame.pc ≠ .running
  next : frame.next = .returning ∨ frame.next = .exiting

end LogFrame

/-- What holds of a function and those that it interrupted. -/
def StackSound (initial origMask : Finset Signal) : Finset Signal → LogFrame → List LogFrame → Prop
  | mask, frame, [] =>
      frame.Sound initial origMask mask ∧ frame.origin = none ∧ frame.next = .running
  | mask, frame, outer :: rest =>
      frame.Sound initial origMask mask ∧ (∃ sig, frame.IsHandler sig) ∧
        StackSound initial origMask frame.saved outer rest

def LogProcess.Sound (initial : Finset Signal) (process : LogProcess) : Prop :=
  StackSound initial process.origMask process.mask process.top process.below

section Stacks

variable {initial origMask mask : Finset Signal} {frame inner : LogFrame} {rest : List LogFrame}

theorem StackSound.top (sound : StackSound initial origMask mask frame rest) :
    frame.Sound initial origMask mask := by
  cases rest with
  | nil => exact sound.1
  | cons outer rest => exact sound.1

theorem LogFrame.Sound.base_subset (sound : frame.Sound initial origMask mask) :
    frame.base initial ⊆ mask := by
  rw [sound.mask, LogFrame.maskNow]
  split
  · exact Finset.subset_union_left
  · exact Finset.Subset.refl _

/-- Where one of the functions is in the log's critical part, the signals are blocked. -/
theorem StackSound.blocks (sound : StackSound initial origMask mask frame rest)
    (member : inner ∈ frame :: rest) (busy : inner.pc.busy = true) : logMask ⊆ mask := by
  induction rest generalizing mask frame with
  | nil =>
      obtain rfl := List.mem_singleton.mp member
      rw [sound.top.mask, LogFrame.maskNow, if_pos busy]
      exact Finset.subset_union_right
  | cons outer rest ih =>
      rcases List.mem_cons.mp member with rfl | below
      · rw [sound.top.mask, LogFrame.maskNow, if_pos busy]
        exact Finset.subset_union_right
      · obtain ⟨top, ⟨sig, handler⟩, outside⟩ := sound
        have saved : frame.saved ⊆ frame.base initial := by
          rw [LogFrame.base, handler.origin]
          exact Finset.subset_insert _ _
        exact ((ih outside below).trans saved).trans top.base_subset

/-- Below a function that logs, none is in the critical part. -/
theorem StackSound.free_below (sound : StackSound initial origMask mask frame rest)
    (logging : frame.pc.logging = true) (member : inner ∈ rest) : inner.pc.busy = false := by
  cases rest with
  | nil => cases member
  | cons outer rest =>
      obtain ⟨-, ⟨sig, handler⟩, outside⟩ := sound
      by_contra busy
      rw [Bool.not_eq_false] at busy
      exact handler.delivered (outside.blocks member busy (handler.logs logging))

/-- As long as no function is in the critical part, `orig_mask` may change. -/
theorem StackSound.change (sound : StackSound initial origMask mask frame rest)
    (free : ∀ inner ∈ frame :: rest, inner.pc.busy = false) (changed : Finset Signal) :
    StackSound initial changed mask frame rest := by
  have here := free frame List.mem_cons_self
  have top : frame.Sound initial changed mask :=
    ⟨sound.top.mask, fun busy => by rw [here] at busy; cases busy⟩
  induction rest generalizing mask frame with
  | nil => exact ⟨top, sound.2⟩
  | cons outer rest ih =>
      have below : ∀ inner ∈ outer :: rest, inner.pc.busy = false := fun inner isInner =>
        free inner (List.mem_cons_of_mem _ isInner)
      have first := below outer List.mem_cons_self
      exact ⟨top, sound.2.1, ih sound.2.2 below first
        ⟨sound.2.2.top.mask, fun busy => by rw [first] at busy; cases busy⟩⟩

theorem StackSound.replace {mask' : Finset Signal} {frame' : LogFrame}
    (sound : StackSound initial origMask mask frame rest)
    (top : frame'.Sound initial origMask mask') (origin : frame'.origin = frame.origin)
    (saved : frame'.saved = frame.saved) (next : frame'.next = frame.next)
    (logs : ∀ sig, frame.IsHandler sig → frame'.IsHandler sig) :
    StackSound initial origMask mask' frame' rest := by
  cases rest with
  | nil => exact ⟨top, origin.trans sound.2.1, next.trans sound.2.2⟩
  | cons outer rest =>
      obtain ⟨-, ⟨sig, handler⟩, outside⟩ := sound
      refine ⟨top, ⟨sig, logs sig handler⟩, ?_⟩
      rw [saved]
      exact outside

/-- After its call of the log, a function has its own mask again. -/
theorem StackSound.afterCall (sound : StackSound initial origMask mask frame rest) :
    StackSound initial origMask (frame.base initial) { frame with pc := frame.next } rest := by
  have quiet : frame.next.logging = false ∧
      (∀ sig, frame.IsHandler sig → frame.next ≠ .running) := by
    cases rest with
    | nil =>
        rw [sound.2.2]
        refine ⟨rfl, fun sig handler => ?_⟩
        have origin := handler.origin
        rw [sound.2.1] at origin
        cases origin
    | cons outer rest =>
        obtain ⟨-, ⟨sig, handler⟩, -⟩ := sound
        rcases handler.next with next | next <;> rw [next] <;> exact ⟨rfl, fun _ _ => nofun⟩
  have idle : frame.next.busy = false := by
    have notLogging := quiet.1
    rw [LogPc.logging, Bool.or_eq_false_iff] at notLogging
    exact notLogging.2
  refine sound.replace ⟨?_, fun busy => ?_⟩ rfl rfl rfl fun sig handler => ?_
  · rw [LogFrame.maskNow, if_neg (by rw [idle]; nofun)]
    rfl
  · rw [idle] at busy
    cases busy
  · refine ⟨handler.origin, handler.delivered, fun logging => ?_, quiet.2 sig handler, handler.next⟩
    rw [quiet.1] at logging
    cases logging

end Stacks

namespace LogProcess

/-- How many of the functions of a process are between `LOCK_LOG` and `UNLOCK_LOG`. -/
def writes (process : LogProcess) : Nat :=
  (process.top :: process.below).countP (·.pc == .writing)

variable {initial : Finset Signal} {process process' : LogProcess} {pc : LogPc}

theorem Sound.not_busy (sound : process.Sound initial) (idle : process.top.pc.busy = false) :
    process.mask = process.top.base initial := by
  have mask := StackSound.top sound |>.mask
  rw [LogFrame.maskNow, if_neg (by rw [idle]; nofun)] at mask
  exact mask

theorem Sound.next_ne_writing (sound : process.Sound initial) :
    process.top.next ≠ .writing := by
  unfold Sound at sound
  cases outside : process.below with
  | nil =>
      rw [outside] at sound
      rw [sound.2.2]
      nofun
  | cons outer rest =>
      rw [outside] at sound
      obtain ⟨-, ⟨sig, handler⟩, -⟩ := sound
      rcases handler.next with next | next <;> rw [next] <;> nofun

theorem goTo_writes (before : process.top.pc ≠ .writing) (after : pc ≠ .writing) :
    (process.goTo pc).writes = process.writes := by
  have first : (process.top.pc == LogPc.writing) = false := beq_false_of_ne before
  have second : (pc == LogPc.writing) = false := beq_false_of_ne after
  rw [writes, writes, List.countP_cons, List.countP_cons]
  change List.countP _ process.below + (if pc == .writing then 1 else 0) = _
  rw [first, second]

theorem Sound.call (sound : process.Sound initial) (running : process.top.pc = .running) :
    (process.goTo .blocking).Sound initial := by
  have mask := sound.not_busy (by rw [running]; rfl)
  refine StackSound.replace sound ⟨mask, nofun⟩ rfl rfl rfl fun sig handler => ?_
  exact absurd running handler.notProgram

theorem Sound.skip (sound : process.Sound initial) (blocking : process.top.pc = .blocking) :
    (process.goTo process.top.next).Sound initial := by
  have mask := sound.not_busy (by rw [blocking]; rfl)
  have after := StackSound.afterCall sound
  rw [← mask] at after
  exact after

theorem Sound.block (sound : process.Sound initial) (blocking : process.top.pc = .blocking) :
    { process.goTo .locking with
      mask := process.mask ∪ logMask, origMask := process.mask }.Sound initial := by
  have mask := sound.not_busy (by rw [blocking]; rfl)
  have free : ∀ inner ∈ process.top :: process.below, inner.pc.busy = false := by
    intro inner isInner
    rcases List.mem_cons.mp isInner with rfl | below
    · rw [blocking]
      rfl
    · exact StackSound.free_below sound (by rw [blocking]; rfl) below
  have changed := StackSound.change sound free process.mask
  refine changed.replace ⟨?_, fun _ => mask⟩ rfl rfl rfl fun sig handler => ?_
  · rw [mask]
    rfl
  · exact ⟨handler.origin, handler.delivered, fun _ => handler.logs (by rw [blocking]; rfl), nofun,
      handler.next⟩

theorem Sound.advance (sound : process.Sound initial) (before : process.top.pc.busy = true)
    (after : pc.busy = true) : (process.goTo pc).Sound initial := by
  have top := StackSound.top sound
  refine StackSound.replace sound ⟨?_, fun _ => top.orig before⟩ rfl rfl rfl fun sig handler => ?_
  · have mask := top.mask
    rw [LogFrame.maskNow, if_pos before] at mask
    rw [LogFrame.maskNow, if_pos (show (process.goTo pc).top.pc.busy = true from after)]
    exact mask
  · refine ⟨handler.origin, handler.delivered, fun _ => handler.logs ?_, ?_, handler.next⟩
    · rw [LogPc.logging, before, Bool.or_true]
    · rintro rfl
      cases after

theorem Sound.restore (sound : process.Sound initial)
    (restoring : process.top.pc = .restoring) :
    { process.goTo process.top.next with mask := process.origMask }.Sound initial := by
  have orig := (StackSound.top sound).orig (by rw [restoring]; rfl)
  have after := StackSound.afterCall sound
  rw [← orig] at after
  exact after

theorem handle_isHandler {sig : Signal} {start : HandlerStart} {saved : Finset Signal}
    (handles : process.handle sig = some start) (delivered : sig ∉ saved) :
    (⟨some sig, saved, start.pc, start.next⟩ : LogFrame).IsHandler sig ∧
      start.pc.busy = false := by
  have quiet {pc next : LogPc} (isQuiet : pc = .returning ∨ pc = .exiting)
      (ends : next = .returning ∨ next = .exiting) :
      (⟨some sig, saved, pc, next⟩ : LogFrame).IsHandler sig ∧ pc.busy = false := by
    rcases isQuiet with rfl | rfl <;> exact ⟨⟨rfl, delivered, nofun, nofun, ends⟩, rfl⟩
  have terminates (isLogged : sig ∈ logMask) :
      (⟨some sig, saved, (process.terminateSignalHandler sig).pc,
        (process.terminateSignalHandler sig).next⟩ : LogFrame).IsHandler sig ∧
        (process.terminateSignalHandler sig).pc.busy = false := by
    unfold terminateSignalHandler
    split
    · refine ⟨⟨rfl, delivered, fun _ => isLogged, nofun, ?_⟩, rfl⟩
      dsimp only
      split
      · exact .inl rfl
      · exact .inr rfl
    · split
      · exact ⟨⟨rfl, delivered, fun _ => isLogged, nofun, .inr rfl⟩, rfl⟩
      · exact quiet (.inl rfl) (.inl rfl)
  cases sig with
  | int => cases handles; exact terminates (by decide)
  | quit => cases handles; exact terminates (by decide)
  | term => cases handles; exact terminates (by decide)
  | ill | fpe | segv | bus => cases handles; exact quiet (.inr rfl) (.inr rfl)
  | alrm | usr1 | pipe => cases handles; exact quiet (.inl rfl) (.inl rfl)
  | hup | usr2 => cases handles
  | chld =>
      cases handles
      unfold childSignalHandler
      split
      · exact quiet (.inr rfl) (.inr rfl)
      · split
        · exact quiet (.inr rfl) (.inr rfl)
        · exact quiet (.inl rfl) (.inl rfl)

theorem Sound.deliver (sound : process.Sound initial) {sig : Signal} {start : HandlerStart}
    (handles : process.handle sig = some start) (delivered : sig ∉ process.mask) :
    { process with
      sigExiting := start.sigExiting
      mask := insert sig process.mask
      top := ⟨some sig, process.mask, start.pc, start.next⟩
      below := process.top :: process.below }.Sound initial := by
  have ⟨handler, idle⟩ := handle_isHandler handles delivered
  refine ⟨⟨?_, fun busy => ?_⟩, ⟨sig, handler⟩, sound⟩
  · rw [LogFrame.maskNow, if_neg (by rw [idle]; nofun)]
    rfl
  · rw [idle] at busy
    cases busy

theorem writes_cons {sigExiting : Bool} {mask : Finset Signal} {frame : LogFrame}
    (idle : frame.pc.busy = false) :
    { process with
      sigExiting := sigExiting
      mask := mask
      top := frame
      below := process.top :: process.below }.writes = process.writes := by
  have notWriting : (frame.pc == LogPc.writing) = false := by
    apply beq_false_of_ne
    rintro isWriting
    rw [isWriting] at idle
    cases idle
  change List.countP _ (frame :: _) = _
  rw [List.countP_cons, notWriting]
  rfl

theorem Sound.acted {action : LogAction} (sound : process.Sound initial)
    (acts : process.act action = some process') :
    process'.Sound initial ∧ process'.alive = process.alive ∧
      process'.writes = process.writes := by
  cases action with
  | call =>
      rw [act, Option.ite_none_right_eq_some] at acts
      obtain ⟨running, acts⟩ := acts
      cases acts
      exact ⟨sound.call running, rfl, goTo_writes (by rw [running]; nofun) nofun⟩
  | skip =>
      rw [act, Option.ite_none_right_eq_some] at acts
      obtain ⟨blocking, acts⟩ := acts
      cases acts
      exact ⟨sound.skip blocking, rfl,
        goTo_writes (by rw [blocking]; nofun) sound.next_ne_writing⟩
  | block =>
      rw [act, Option.ite_none_right_eq_some] at acts
      obtain ⟨blocking, acts⟩ := acts
      cases acts
      exact ⟨sound.block blocking, rfl, goTo_writes (by rw [blocking]; nofun) nofun⟩
  | restore =>
      rw [act, Option.ite_none_right_eq_some] at acts
      obtain ⟨restoring, acts⟩ := acts
      cases acts
      exact ⟨sound.restore restoring, rfl,
        goTo_writes (by rw [restoring]; nofun) sound.next_ne_writing⟩
  | deliver sig =>
      rw [act, Option.ite_none_left_eq_some, Option.map_eq_some_iff] at acts
      obtain ⟨delivered, start, handles, acts⟩ := acts
      cases acts
      exact ⟨sound.deliver handles delivered, rfl,
        writes_cons (handle_isHandler handles delivered).2⟩
  | ret =>
      unfold act at acts
      cases outside : process.below with
      | nil =>
          rw [outside] at acts
          cases acts
      | cons outer below =>
          rw [outside] at acts
          dsimp only at acts
          rw [Option.ite_none_right_eq_some] at acts
          obtain ⟨returning, acts⟩ := acts
          cases acts
          unfold Sound at sound
          rw [outside] at sound
          refine ⟨sound.2.2, rfl, ?_⟩
          rw [writes, writes, outside, List.countP_cons (a := process.top), returning]
          rfl
  | lock | unlock | exit | kill | fork => cases acts

end LogProcess

/-! ## What holds of all processes -/

def LogProcess.taken (process : LogProcess) : Int := if process.alive then process.writes else 0

structure LogSound (initial : Finset Signal) (s : LogSystem) : Prop where
  adjust : s.sem.adjust = s.processes.map LogProcess.taken
  sound : ∀ process ∈ s.processes, process.Sound initial
  one : s.sem.total = 1
  left : 0 ≤ s.sem.value

section Steps

variable {initial : Finset Signal} {s s' : LogSystem} {p : Nat} {process process' : LogProcess}

theorem LogProcess.taken_nonneg (process : LogProcess) : 0 ≤ process.taken := by
  unfold taken
  split <;> omega

theorem initialLog_sound (mask : Finset Signal) : LogSound mask (initialLog mask) where
  adjust := rfl
  sound := by
    intro process isProcess
    obtain rfl := List.mem_singleton.mp isProcess
    exact ⟨⟨rfl, nofun⟩, rfl, rfl⟩
  one := rfl
  left := Int.one_nonneg

theorem LogSound.inRange (sound : LogSound initial s) (at_p : s.processes[p]? = some process) :
    p < s.sem.adjust.length := by
  rw [sound.adjust, List.length_map]
  exact (List.getElem?_eq_some_iff.mp at_p).1

theorem LogSound.replace (sound : LogSound initial s) {sem : UndoSemaphore}
    (adjust : sem.adjust = s.sem.adjust.set p process'.taken) (kept : process'.Sound initial)
    (total : sem.total = s.sem.total) (left : 0 ≤ sem.value) :
    LogSound initial ⟨sem, s.processes.set p process'⟩ where
  adjust := by
    rw [adjust, sound.adjust, List.map_set]
  sound := by
    intro other isOther
    rcases List.mem_or_eq_of_mem_set isOther with old | new
    · exact sound.sound other old
    · rw [new]
      exact kept
  one := total.trans sound.one
  left := left

theorem LogSound.taken (sound : LogSound initial s) (at_p : s.processes[p]? = some process) :
    s.sem.adjust.getD p 0 = process.taken := by
  rw [sound.adjust, List.getD_eq_getElem?_getD, List.getElem?_map, at_p]
  rfl

theorem LogSound.set_same (sound : LogSound initial s) (at_p : s.processes[p]? = some process) :
    s.sem.adjust.set p process.taken = s.sem.adjust := by
  rw [← sound.taken at_p, List.getD_eq_getElem _ _ (sound.inRange at_p), List.set_getElem_self]

theorem LogProcess.taken_eq (alive : process.alive = true) : process.taken = process.writes :=
  if_pos alive

theorem LogSound.lock (sound : LogSound initial s) (at_p : s.processes[p]? = some process)
    (alive : process.alive = true) (locking : process.top.pc = .locking) {sem : UndoSemaphore}
    (takes : s.sem.wait p = some sem) :
    LogSound initial ⟨sem, s.processes.set p (process.goTo .writing)⟩ := by
  have kept := sound.sound process (List.mem_of_getElem? at_p)
  have total := UndoSemaphore.total_wait (sound.inRange at_p) takes
  obtain ⟨positive, rfl⟩ := UndoSemaphore.wait_eq_some.mp takes
  have more : (process.goTo .writing).taken = process.taken + 1 := by
    rw [LogProcess.taken_eq alive, @LogProcess.taken_eq (process.goTo .writing) alive,
      LogProcess.writes, LogProcess.writes, List.countP_cons, List.countP_cons, locking]
    rfl
  refine sound.replace ?_ (kept.advance (by rw [locking]; rfl) rfl) total (by dsimp only; omega)
  dsimp only
  rw [sound.taken at_p, more]

theorem LogSound.unlock (sound : LogSound initial s) (at_p : s.processes[p]? = some process)
    (alive : process.alive = true) (writing : process.top.pc = .writing) :
    LogSound initial ⟨s.sem.post p, s.processes.set p (process.goTo .restoring)⟩ := by
  have kept := sound.sound process (List.mem_of_getElem? at_p)
  have fewer : (process.goTo .restoring).taken = process.taken - 1 := by
    rw [LogProcess.taken_eq alive, @LogProcess.taken_eq (process.goTo .restoring) alive,
      LogProcess.writes, LogProcess.writes, List.countP_cons, List.countP_cons, writing]
    change (List.countP _ process.below : Int) = ((List.countP _ process.below + 1 : Nat) : Int) - 1
    omega
  have left := sound.left
  refine sound.replace ?_ (kept.advance (by rw [writing]; rfl) rfl)
    (UndoSemaphore.total_post (sound.inRange at_p)) (by change 0 ≤ s.sem.value + 1; omega)
  rw [fewer, ← sound.taken at_p]
  rfl

theorem LogSound.leave (sound : LogSound initial s) (at_p : s.processes[p]? = some process) :
    LogSound initial ⟨s.sem.leave p, s.processes.set p { process with alive := false }⟩ := by
  have kept := sound.sound process (List.mem_of_getElem? at_p)
  have left := sound.left
  have back := process.taken_nonneg
  refine sound.replace rfl kept (UndoSemaphore.total_leave (sound.inRange at_p)) ?_
  change 0 ≤ s.sem.value + s.sem.adjust.getD p 0
  rw [sound.taken at_p]
  omega

/-- Only the program forks, outside of the log. -/
theorem LogProcess.Sound.running_below (sound : process.Sound initial)
    (running : process.top.pc = .running) : process.below = [] := by
  unfold LogProcess.Sound at sound
  cases outside : process.below with
  | nil => rfl
  | cons outer rest =>
      rw [outside] at sound
      obtain ⟨-, ⟨sig, handler⟩, -⟩ := sound
      exact absurd running handler.notProgram

theorem LogSound.fork (sound : LogSound initial s) (at_p : s.processes[p]? = some process)
    (running : process.top.pc = .running) :
    LogSound initial ⟨s.sem.join, s.processes ++ [{ process with parent := false }]⟩ := by
  have kept := sound.sound process (List.mem_of_getElem? at_p)
  have none : { process with parent := false }.taken = 0 := by
    unfold LogProcess.taken LogProcess.writes
    rw [kept.running_below running, List.countP_cons, running]
    exact ite_self _
  constructor
  · change s.sem.adjust ++ [0] = _
    rw [sound.adjust, List.map_append, List.map_singleton, none]
  · intro other isOther
    rcases List.mem_append.mp isOther with old | new
    · exact sound.sound other old
    · obtain rfl := List.mem_singleton.mp new
      exact kept
  · exact UndoSemaphore.total_join.trans sound.one
  · exact sound.left

theorem LogSound.acted {action : LogAction} (sound : LogSound initial s)
    (at_p : s.processes[p]? = some process) (acts : process.act action = some process') :
    LogSound initial ⟨s.sem, s.processes.set p process'⟩ := by
  have kept := sound.sound process (List.mem_of_getElem? at_p)
  have ⟨after, alive, writes⟩ := kept.acted acts
  have same : process'.taken = process.taken := by
    rw [LogProcess.taken, LogProcess.taken, alive, writes]
  refine sound.replace ?_ after rfl sound.left
  rw [same, sound.set_same at_p]

theorem LogSound.step {action : LogAction} (sound : LogSound initial s)
    (steps : s.step p action = some s') : LogSound initial s' := by
  rw [LogSystem.step, Option.bind_eq_bind, Option.bind_eq_some_iff] at steps
  obtain ⟨process, at_p, steps⟩ := steps
  rw [Option.ite_none_right_eq_some] at steps
  obtain ⟨alive, steps⟩ := steps
  have acted (acts : (process.act action).bind (fun process' =>
      some (⟨s.sem, s.processes.set p process'⟩ : LogSystem)) = some s') :
      LogSound initial s' := by
    obtain ⟨process', does, made⟩ := Option.bind_eq_some_iff.mp acts
    cases made
    exact sound.acted at_p does
  cases action with
  | lock =>
      dsimp only at steps
      rw [Option.ite_none_right_eq_some, Option.bind_eq_bind, Option.bind_eq_some_iff] at steps
      obtain ⟨locking, sem, takes, made⟩ := steps
      cases made
      exact sound.lock at_p alive locking takes
  | unlock =>
      dsimp only at steps
      rw [Option.ite_none_right_eq_some] at steps
      obtain ⟨writing, made⟩ := steps
      cases made
      exact sound.unlock at_p alive writing
  | exit =>
      dsimp only at steps
      rw [Option.ite_none_right_eq_some] at steps
      obtain ⟨-, made⟩ := steps
      cases made
      exact sound.leave at_p
  | kill =>
      cases steps
      exact sound.leave at_p
  | fork =>
      dsimp only at steps
      rw [Option.ite_none_right_eq_some] at steps
      obtain ⟨running, made⟩ := steps
      cases made
      exact sound.fork at_p running
  | call | skip | block | restore | deliver | ret => exact acted steps

theorem LogSound.run {actions : List (Nat × LogAction)} (sound : LogSound initial s)
    (runs : s.run actions = some s') : LogSound initial s' := by
  induction actions generalizing s with
  | nil =>
      cases runs
      exact sound
  | cons action actions ih =>
      rw [LogSystem.run, List.foldlM_cons, Option.bind_eq_bind, Option.bind_eq_some_iff] at runs
      obtain ⟨next, steps, runs⟩ := runs
      exact ih (sound.step steps) runs

theorem step_unlock (at_p : s.processes[p]? = some process) (alive : process.alive = true)
    (writing : process.top.pc = .writing) :
    s.step p .unlock = some ⟨s.sem.post p, s.processes.set p (process.goTo .restoring)⟩ := by
  rw [LogSystem.step, at_p]
  exact (if_pos alive).trans (if_pos writing)

theorem step_exit (at_p : s.processes[p]? = some process) (alive : process.alive = true)
    (exiting : process.top.pc = .exiting) :
    s.step p .exit =
      some ⟨s.sem.leave p, s.processes.set p { process with alive := false }⟩ := by
  rw [LogSystem.step, at_p]
  exact (if_pos alive).trans (if_pos exiting)

theorem step_ret (at_p : s.processes[p]? = some process) (alive : process.alive = true)
    (returns : process.act .ret = some process') :
    s.step p .ret = some ⟨s.sem, s.processes.set p process'⟩ := by
  rw [LogSystem.step, at_p]
  refine (if_pos alive).trans ?_
  change (process.act .ret).bind _ = _
  rw [returns]
  rfl

theorem step_lock (at_p : s.processes[p]? = some process) (alive : process.alive = true)
    (locking : process.top.pc = .locking) (free : 0 < s.sem.value) :
    (s.step p .lock).isSome := by
  rw [LogSystem.step, at_p]
  change (ite _ _ _ : Option LogSystem).isSome = true
  rw [if_pos alive, if_pos locking, UndoSemaphore.wait, if_pos free]
  rfl

theorem run_cons {action : Nat × LogAction} {actions : List (Nat × LogAction)}
    (steps : s.step action.1 action.2 = some s') : s.run (action :: actions) = s'.run actions := by
  rw [LogSystem.run, List.foldlM_cons, steps]
  rfl

/-- A function that was interrupted in the critical part: what interrupted it goes on to
return or to exit. -/
theorem LogProcess.Sound.ends (sound : process.Sound initial)
    (notWriting : process.top.pc ≠ .writing) (writes : 0 < process.writes) :
    ∃ outer rest, process.below = outer :: rest ∧
      (process.top.pc = .returning ∨ process.top.pc = .exiting) := by
  rw [LogProcess.writes, List.countP_pos_iff] at writes
  obtain ⟨inner, member, isWriting⟩ := writes
  rw [beq_iff_eq] at isWriting
  have busy : inner.pc.busy = true := by
    rw [isWriting]
    rfl
  rcases List.mem_cons.mp member with rfl | below
  · exact absurd isWriting notWriting
  · cases outside : process.below with
    | nil =>
        rw [outside] at below
        cases below
    | cons outer rest =>
        refine ⟨outer, rest, rfl, ?_⟩
        have notLogging : process.top.pc.logging ≠ true := fun logging => by
          rw [StackSound.free_below sound logging below] at busy
          cases busy
        unfold LogProcess.Sound at sound
        rw [outside] at sound
        obtain ⟨-, ⟨sig, handler⟩, -⟩ := sound
        have notProgram := handler.notProgram
        cases at_pc : process.top.pc with
        | running => exact absurd at_pc notProgram
        | blocking | locking | writing | restoring =>
            rw [at_pc] at notLogging
            exact absurd rfl notLogging
        | returning => exact .inl rfl
        | exiting => exact .inr rfl

/-- A process that holds the lock gives it back by what it does itself. -/
theorem LogSound.release (sound : LogSound initial s) (at_p : s.processes[p]? = some process)
    (alive : process.alive = true) (writes : 0 < process.writes) :
    ∃ actions : List LogAction, (∀ action ∈ actions, action ∈ [.ret, .unlock, .exit]) ∧
      ∃ s', s.run (actions.map (p, ·)) = some s' ∧ 0 < s'.sem.value ∧
        ∀ q ≠ p, s'.processes[q]? = s.processes[q]? := by
  induction depth : process.below.length using Nat.strong_induction_on
    generalizing s process with
  | _ n ih =>
      have left := sound.left
      have others (process' : LogProcess) (q : Nat) (other : q ≠ p) :
          (s.processes.set p process')[q]? = s.processes[q]? :=
        List.getElem?_set_ne (Ne.symm other)
      by_cases writing : process.top.pc = .writing
      · refine ⟨[.unlock], by simp, _, run_cons (step_unlock at_p alive writing), ?_, others _⟩
        change 0 < s.sem.value + 1
        omega
      · have kept := sound.sound process (List.mem_of_getElem? at_p)
        obtain ⟨outer, rest, outside, ends⟩ := kept.ends writing writes
        rcases ends with returning | exiting
        · have returns : process.act .ret =
              some { process with mask := process.top.saved, top := outer, below := rest } := by
            rw [LogProcess.act, outside]
            exact if_pos returning
          have ⟨_, _, same⟩ := kept.acted returns
          have after := sound.acted at_p returns
          have inRange : p < s.processes.length := (List.getElem?_eq_some_iff.mp at_p).1
          have fewer : rest.length < n := by
            rw [← depth, outside]
            exact Nat.lt_succ_self _
          have ⟨actions, own, s', runs, free, kept'⟩ := ih rest.length fewer after
            (List.getElem?_set_self inRange) alive (by rw [same]; exact writes) rfl
          refine ⟨.ret :: actions, ?_, s', ?_, free, fun q other => ?_⟩
          · intro action isAction
            rcases List.mem_cons.mp isAction with rfl | isLater
            · exact List.mem_cons_self
            · exact own action isLater
          · rw [List.map_cons, run_cons (step_ret at_p alive returns)]
            exact runs
          · rw [kept' q other, others _ q other]
        · refine ⟨[.exit], by simp, _, run_cons (step_exit at_p alive exiting), ?_, others _⟩
          have taken := sound.taken at_p
          rw [LogProcess.taken_eq alive] at taken
          change 0 < s.sem.value + s.sem.adjust.getD p 0
          omega

end Steps

/-! ## The runs of the program -/

/-- A process is between `LOCK_LOG` and `UNLOCK_LOG`, or a handler interrupted it there. -/
def LogSystem.Holds (s : LogSystem) (p : Nat) : Prop :=
  ∃ process, s.processes[p]? = some process ∧ process.alive = true ∧ 0 < process.writes

variable {initial : Finset Signal} {s : LogSystem} {p q : Nat}

theorem LogSound.taken_holds (sound : LogSound initial s) (inRange : p < s.sem.adjust.length)
    (positive : 0 < s.sem.adjust[p]) : s.Holds p := by
  have inside : p < s.processes.length := by
    rw [sound.adjust, List.length_map] at inRange
    exact inRange
  have at_p := List.getElem?_eq_getElem inside
  have taken := sound.taken at_p
  rw [List.getD_eq_getElem _ _ inRange] at taken
  rw [taken, LogProcess.taken] at positive
  split at positive
  · exact ⟨_, at_p, ‹_›, by omega⟩
  · omega

/-- A process that waits for the log does not hold it itself, and either takes it or waits
for one that gives it back without any other. -/
theorem log_progress (mask : Finset Signal) (actions : List (Nat × LogAction)) (s : LogSystem)
    (runs : (initialLog mask).run actions = some s) (p : Nat) (process : LogProcess)
    (at_p : s.processes[p]? = some process) (alive : process.alive = true)
    (waits : process.top.pc = .locking) :
    ¬s.Holds p ∧ ((s.step p .lock).isSome ∨
      ∃ q ≠ p, s.Holds q ∧ ∃ own : List LogAction,
        (∀ action ∈ own, action ∈ [.ret, .unlock, .exit]) ∧
          ∃ s', s.run (own.map (q, ·)) = some s' ∧ (s'.step p .lock).isSome) := by
  have sound := (initialLog_sound mask).run runs
  have notHolds : ¬s.Holds p := by
    rintro ⟨process', at_p', -, writes⟩
    rw [at_p] at at_p'
    cases at_p'
    have kept := sound.sound process (List.mem_of_getElem? at_p)
    obtain ⟨-, -, -, ends⟩ := kept.ends (by rw [waits]; nofun) writes
    rw [waits] at ends
    rcases ends with ends | ends <;> cases ends
  refine ⟨notHolds, ?_⟩
  have left := sound.left
  by_cases free : 0 < s.sem.value
  · exact .inl (step_lock at_p alive waits free)
  · obtain ⟨q, inRange, positive⟩ := UndoSemaphore.taken sound.one (by omega)
    have holds := sound.taken_holds inRange positive
    have other : q ≠ p := by
      rintro rfl
      exact notHolds holds
    obtain ⟨holder, at_q, holderAlive, writes⟩ := holds
    obtain ⟨own, isOwn, s', release, free', kept⟩ := sound.release at_q holderAlive writes
    refine .inr ⟨q, other, ⟨holder, at_q, holderAlive, writes⟩, own, isOwn, s', release, ?_⟩
    exact step_lock ((kept p other.symm).trans at_p) alive waits free'

theorem log_progress_forked :
    ∃ s, (initialLog ∅).run [(0, .fork), (1, .call), (1, .block), (1, .lock), (0, .call),
      (0, .block)] = some s ∧ ¬s.Holds 0 :=
  ⟨_, rfl, (log_progress ∅ [(0, .fork), (1, .call), (1, .block), (1, .lock), (0, .call),
    (0, .block)] _ rfl 0 _ rfl rfl rfl).1⟩

/-- Outside of the log's critical part, a function has the mask that it began with; in it,
no signal is handled whose handler logs. -/
theorem log_masks (mask : Finset Signal) (actions : List (Nat × LogAction)) (s : LogSystem)
    (runs : (initialLog mask).run actions = some s) (p : Nat) (process : LogProcess)
    (at_p : s.processes[p]? = some process) :
    (process.top.pc.busy = false → process.mask = process.top.base mask) ∧
      (s.Holds p → ∀ sig ∈ logMask, s.step p (.deliver sig) = none) := by
  have sound := (initialLog_sound mask).run runs
  have kept := sound.sound process (List.mem_of_getElem? at_p)
  refine ⟨kept.not_busy, ?_⟩
  rintro ⟨process', at_p', alive, writes⟩ sig isLogged
  rw [at_p] at at_p'
  cases at_p'
  rw [LogProcess.writes, List.countP_pos_iff] at writes
  obtain ⟨inner, member, isWriting⟩ := writes
  rw [beq_iff_eq] at isWriting
  have blocked := StackSound.blocks kept member (by rw [isWriting]; rfl) isLogged
  rw [LogSystem.step, at_p]
  refine (if_pos alive).trans ?_
  change (process.act (.deliver sig)).bind _ = none
  rw [LogProcess.act, if_pos blocked]
  rfl

theorem log_masks_writing :
    ∃ s, (initialLog ∅).run [(0, .call), (0, .block), (0, .lock)] = some s ∧
      s.step 0 (.deliver .term) = none :=
  ⟨_, rfl, (log_masks ∅ [(0, .call), (0, .block), (0, .lock)] _ rfl 0 _ rfl).2
    ⟨_, rfl, rfl, by decide⟩ .term (by decide)⟩

end NtShm
