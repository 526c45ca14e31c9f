import Mathlib.Data.List.Infix
import Mathlib.Data.List.Nodup
import Mathlib.Logic.Function.Basic

/-!
# The event loop of the net server

`net_server` handles the events of one `epoll_wait` one after the other.  It accepts what
waits at the listening socket, and of a client it reads, makes a task of what it read and
closes the descriptor, before it goes on to read from it.  Descriptors are used again once
they are closed.
-/

namespace NtShm

/-- `task_t` with the data that it points to, and the connection that the data are from. -/
structure NetTask where
  connection : Nat
  clientFd : Nat
  data : List UInt8
  deriving DecidableEq

/-- The descriptors, the connections by their number, the events still to be handled and
the tasks that were pushed. -/
structure NetServer where
  /-- The connection at an open descriptor. -/
  descriptors : Nat → Option Nat
  /-- How many connections were accepted. -/
  accepted : Nat
  /-- What each client has sent so far. -/
  sent : Nat → List UInt8
  /-- What of it is not read. -/
  unread : Nat → List UInt8
  /-- The client has closed the connection. -/
  ended : Nat → Bool
  /-- `none` for `listen_sock`; else `data.fd`, and the connection that was reported. -/
  events : List (Option (Nat × Nat))
  tasks : List NetTask

/-- `BUFFER_SIZE`. -/
def bufferSize : Nat := 1024

/-- `MAX_EVENTS`. -/
def maxEvents : Nat := 10

/-- `close`, which fails where nothing is open. -/
def NetServer.close (s : NetServer) (fd : Nat) : NetServer :=
  { s with descriptors := Function.update s.descriptors fd none }

/-- One system call of the server, with what follows it, or something that a client does. -/
inductive NetStep : NetServer → NetServer → Prop
  /-- `epoll_wait` reports some of the descriptors, each at most once. -/
  | wait {s : NetServer} (events : List (Option (Nat × Nat))) :
      s.events = [] → events.length ≤ maxEvents → events.Nodup →
      (∀ fd connection, some (fd, connection) ∈ events →
        s.descriptors fd = some connection) →
      NetStep s { s with events := events }
  /-- `accept`, and the socket is added to the epoll instance. -/
  | accept {s : NetServer} {events} (fd : Nat) :
      s.events = none :: events → s.descriptors fd = none →
      NetStep s { s with
        descriptors := Function.update s.descriptors fd (some s.accepted)
        accepted := s.accepted + 1 }
  /-- `accept`, but the socket cannot be used, and is closed. -/
  | refuse {s : NetServer} {events} :
      s.events = none :: events →
      NetStep s { s with accepted := s.accepted + 1 }
  /-- `accept` fails. -/
  | accepted {s : NetServer} {events} :
      s.events = none :: events → NetStep s { s with events := events }
  /-- `read` gives some bytes, which are pushed; the descriptor is closed. -/
  | readData {s : NetServer} {events} {fd reported connection : Nat}
      {data rest : List UInt8} :
      s.events = some (fd, reported) :: events → s.descriptors fd = some connection →
      s.unread connection = data ++ rest → data ≠ [] → data.length ≤ bufferSize →
      NetStep s ({ s with
        unread := Function.update s.unread connection rest
        tasks := s.tasks ++ [NetTask.mk connection fd data] }.close fd)
  /-- `read` finds that the client has closed the connection. -/
  | readEnd {s : NetServer} {events} {fd reported connection : Nat} :
      s.events = some (fd, reported) :: events → s.descriptors fd = some connection →
      s.unread connection = [] → s.ended connection = true →
      NetStep s ({ s with events := events }.close fd)
  /-- `read` fails with `EAGAIN`. -/
  | readAgain {s : NetServer} {events} {fd reported connection : Nat} :
      s.events = some (fd, reported) :: events → s.descriptors fd = some connection →
      s.unread connection = [] → s.ended connection = false →
      NetStep s { s with events := events }
  /-- `read` fails otherwise: always where the descriptor is closed. -/
  | readError {s : NetServer} {events} {fd reported : Nat} :
      s.events = some (fd, reported) :: events →
      NetStep s ({ s with events := events }.close fd)
  | clientSends {s : NetServer} (connection : Nat) (bytes : List UInt8) :
      s.ended connection = false →
      NetStep s { s with
        sent := Function.update s.sent connection (s.sent connection ++ bytes)
        unread := Function.update s.unread connection (s.unread connection ++ bytes) }
  | clientEnds {s : NetServer} (connection : Nat) :
      NetStep s { s with ended := Function.update s.ended connection true }

inductive NetRun (initial : NetServer) : NetServer → Prop
  | start : NetRun initial initial
  | step {s s' : NetServer} : NetRun initial s → NetStep s s' → NetRun initial s'

/-- The server before its loop, with no connection at any descriptor. -/
def initialServer : NetServer where
  descriptors := fun _ => none
  accepted := 0
  sent := fun _ => []
  unread := fun _ => []
  ended := fun _ => false
  events := []
  tasks := []

/-! ## The invariant -/

/-- The event that is handled is still about the connection that was reported, or its
descriptor is closed; the events after it are about what was reported. -/
structure EventsRight (descriptors : Nat → Option Nat) (events : List (Option (Nat × Nat))) :
    Prop where
  nodup : (events.filterMap fun event => event.map Prod.fst).Nodup
  head : ∀ fd connection rest, events = some (fd, connection) :: rest →
    descriptors fd = some connection ∨ descriptors fd = none
  later : ∀ event rest, events = event :: rest → ∀ fd connection,
    some (fd, connection) ∈ rest → descriptors fd = some connection

/-- What holds of a task: its data are what the client sent first, in one read, and its
descriptor no longer leads to the client. -/
structure TaskRight (s : NetServer) (task : NetTask) : Prop where
  accepted : task.connection < s.accepted
  closed : ∀ fd, s.descriptors fd ≠ some task.connection
  data : task.data ≠ [] ∧ task.data.length ≤ bufferSize ∧ task.data <+: s.sent task.connection

structure NetSound (s : NetServer) : Prop where
  events : EventsRight s.descriptors s.events
  known : ∀ fd connection, s.descriptors fd = some connection → connection < s.accepted
  single : ∀ fd fd' connection, s.descriptors fd = some connection →
    s.descriptors fd' = some connection → fd = fd'
  once : (s.tasks.map NetTask.connection).Nodup
  tasks : ∀ task ∈ s.tasks, TaskRight s task
  fresh : ∀ connection, connection ∉ s.tasks.map NetTask.connection →
    s.unread connection = s.sent connection

section Invariant

variable {s s' : NetServer} {descriptors : Nat → Option Nat}
  {event : Option (Nat × Nat)} {events : List (Option (Nat × Nat))} {fd connection : Nat}

theorem EventsRight.next (right : EventsRight descriptors (event :: events)) :
    EventsRight descriptors events where
  nodup := by
    have nodup := right.nodup
    rw [List.filterMap_cons] at nodup
    split at nodup
    · exact nodup
    · exact nodup.of_cons
  head := by
    rintro fd connection rest rfl
    exact .inl (right.later _ _ rfl fd connection List.mem_cons_self)
  later := by
    rintro other rest rfl fd connection member
    exact right.later _ _ rfl fd connection (List.mem_cons_of_mem _ member)

theorem EventsRight.close {reported : Nat}
    (right : EventsRight descriptors (some (fd, reported) :: events)) :
    EventsRight (Function.update descriptors fd none) (some (fd, reported) :: events) where
  nodup := right.nodup
  head := by
    intro fd' connection rest same
    cases same
    exact .inr (Function.update_self ..)
  later := by
    intro event rest same fd' connection member
    cases same
    have open_fd := right.later _ _ rfl fd' connection member
    have nodup := right.nodup
    rw [List.filterMap_cons_some
      (show Option.map Prod.fst (some (fd, reported)) = some fd from rfl), List.nodup_cons] at nodup
    have apart : fd' ≠ fd := by
      rintro rfl
      exact nodup.1 (List.mem_filterMap.mpr ⟨_, member, rfl⟩)
    rw [Function.update_of_ne apart]
    exact open_fd

/-- A descriptor that was free is opened while connections are accepted. -/
theorem EventsRight.accept (right : EventsRight descriptors (none :: events))
    (free : descriptors fd = none) :
    EventsRight (Function.update descriptors fd (some connection)) (none :: events) where
  nodup := right.nodup
  head := by
    intro fd' connection' rest same
    cases same
  later := by
    intro event rest same fd' connection' member
    cases same
    have open_fd := right.later _ _ rfl fd' connection' member
    have apart : fd' ≠ fd := by
      rintro rfl
      rw [free] at open_fd
      cases open_fd
    rw [Function.update_of_ne apart]
    exact open_fd

theorem EventsRight.reported (nodup : events.Nodup)
    (reported : ∀ fd connection, some (fd, connection) ∈ events →
      descriptors fd = some connection) : EventsRight descriptors events where
  nodup := by
    apply List.pairwise_filterMap.mpr
    refine nodup.imp_of_mem fun {first second} isFirst isSecond apart => ?_
    intro fd atFirst fd' atSecond
    rw [Option.map_eq_some_iff] at atFirst atSecond
    obtain ⟨⟨_, connection⟩, rfl, rfl⟩ := atFirst
    obtain ⟨⟨_, connection'⟩, rfl, rfl⟩ := atSecond
    rintro rfl
    have same := (reported _ _ isFirst).symm.trans (reported _ _ isSecond)
    cases same
    exact apart rfl
  head := by
    rintro fd connection rest rfl
    exact .inl (reported fd connection List.mem_cons_self)
  later := by
    rintro event rest rfl fd connection member
    exact reported fd connection (List.mem_cons_of_mem _ member)

theorem NetSound.close (sound : NetSound s) {reported : Nat}
    (handled : s.events = some (fd, reported) :: events) :
    NetSound ({ s with events := events }.close fd) := by
  have right := sound.events
  rw [handled] at right
  have opened {fd' connection : Nat}
      (isOpen : Function.update s.descriptors fd none fd' = some connection) :
      s.descriptors fd' = some connection := by
    by_cases same : fd' = fd
    · rw [same, Function.update_self] at isOpen
      cases isOpen
    · rwa [Function.update_of_ne same] at isOpen
  constructor
  case events => exact right.close.next
  case known => exact fun fd' connection isOpen => sound.known fd' connection (opened isOpen)
  case single =>
    exact fun fd' fd'' connection first second =>
      sound.single fd' fd'' connection (opened first) (opened second)
  case once => exact sound.once
  case tasks =>
    intro task isTask
    have kept := sound.tasks task isTask
    exact ⟨kept.accepted, fun fd' isOpen => kept.closed fd' (opened isOpen), kept.data⟩
  case fresh => exact sound.fresh

theorem NetSound.next (sound : NetSound s) (handled : s.events = event :: events) :
    NetSound { s with events := events } where
  events := by
    have right := sound.events
    rw [handled] at right
    exact right.next
  known := sound.known
  single := sound.single
  once := sound.once
  tasks task isTask :=
    have kept := sound.tasks task isTask
    ⟨kept.accepted, kept.closed, kept.data⟩
  fresh := sound.fresh

theorem NetSound.wait (sound : NetSound s) (nodup : events.Nodup)
    (reported : ∀ fd connection, some (fd, connection) ∈ events →
      s.descriptors fd = some connection) : NetSound { s with events := events } where
  events := EventsRight.reported nodup reported
  known := sound.known
  single := sound.single
  once := sound.once
  tasks task isTask :=
    have kept := sound.tasks task isTask
    ⟨kept.accepted, kept.closed, kept.data⟩
  fresh := sound.fresh

theorem NetSound.refuse (sound : NetSound s) : NetSound { s with accepted := s.accepted + 1 } where
  events := sound.events
  known fd connection isOpen := Nat.lt_succ_of_lt (sound.known fd connection isOpen)
  single := sound.single
  once := sound.once
  tasks task isTask :=
    have kept := sound.tasks task isTask
    ⟨Nat.lt_succ_of_lt kept.accepted, kept.closed, kept.data⟩
  fresh := sound.fresh

theorem NetSound.accept (sound : NetSound s) (handled : s.events = none :: events)
    (free : s.descriptors fd = none) :
    NetSound { s with
      descriptors := Function.update s.descriptors fd (some s.accepted)
      accepted := s.accepted + 1 } := by
  have opened {fd' connection : Nat}
      (isOpen : Function.update s.descriptors fd (some s.accepted) fd' = some connection) :
      fd' = fd ∧ connection = s.accepted ∨
        fd' ≠ fd ∧ s.descriptors fd' = some connection := by
    by_cases same : fd' = fd
    · rw [same, Function.update_self] at isOpen
      cases isOpen
      exact .inl ⟨same, rfl⟩
    · rw [Function.update_of_ne same] at isOpen
      exact .inr ⟨same, isOpen⟩
  constructor
  case events =>
    have right := sound.events
    rw [handled] at right ⊢
    exact right.accept free
  case known =>
    intro fd' connection isOpen
    rcases opened isOpen with ⟨-, rfl⟩ | ⟨-, old⟩
    · exact Nat.lt_succ_self _
    · exact Nat.lt_succ_of_lt (sound.known fd' connection old)
  case single =>
    intro fd' fd'' connection first second
    rcases opened first with ⟨rfl, rfl⟩ | ⟨-, old⟩ <;>
      rcases opened second with ⟨rfl, same⟩ | ⟨-, old'⟩
    · rfl
    · exact absurd (sound.known _ _ old') (lt_irrefl _)
    · rw [same] at old
      exact absurd (sound.known _ _ old) (lt_irrefl _)
    · exact sound.single fd' fd'' connection old old'
  case once => exact sound.once
  case tasks =>
    intro task isTask
    have kept := sound.tasks task isTask
    refine ⟨Nat.lt_succ_of_lt kept.accepted, fun fd' isOpen => ?_, kept.data⟩
    rcases opened isOpen with ⟨-, new⟩ | ⟨-, old⟩
    · exact absurd kept.accepted (by rw [new]; exact lt_irrefl _)
    · exact kept.closed fd' old
  case fresh => exact sound.fresh

/-- What is read of a client is what it sent first, as it is read only once. -/
theorem NetSound.readData (sound : NetSound s) {reported : Nat} {data rest : List UInt8}
    (handled : s.events = some (fd, reported) :: events)
    (isOpen : s.descriptors fd = some connection) (unread : s.unread connection = data ++ rest)
    (nonempty : data ≠ []) (short : data.length ≤ bufferSize) :
    NetSound ({ s with
      unread := Function.update s.unread connection rest
      tasks := s.tasks ++ [NetTask.mk connection fd data] }.close fd) := by
  have first : connection ∉ s.tasks.map NetTask.connection := by
    intro member
    obtain ⟨task, isTask, rfl⟩ := List.mem_map.mp member
    exact (sound.tasks task isTask).closed fd isOpen
  have opened {fd' connection : Nat}
      (isOpen' : Function.update s.descriptors fd none fd' = some connection) :
      fd' ≠ fd ∧ s.descriptors fd' = some connection := by
    by_cases same : fd' = fd
    · rw [same, Function.update_self] at isOpen'
      cases isOpen'
    · rw [Function.update_of_ne same] at isOpen'
      exact ⟨same, isOpen'⟩
  constructor
  case events =>
    have right := sound.events
    rw [handled] at right
    change EventsRight (Function.update s.descriptors fd none) s.events
    rw [handled]
    exact right.close
  case known => exact fun fd' connection now => sound.known fd' connection (opened now).2
  case single =>
    exact fun fd' fd'' connection first second =>
      sound.single fd' fd'' connection (opened first).2 (opened second).2
  case once =>
    change ((s.tasks ++ [NetTask.mk connection fd data]).map NetTask.connection).Nodup
    rw [List.map_append, List.nodup_append]
    refine ⟨sound.once, List.nodup_singleton _, ?_⟩
    intro old member new isNew same
    obtain rfl := List.mem_singleton.mp isNew
    rw [same] at member
    exact first member
  case tasks =>
    intro task isTask
    rcases List.mem_append.mp isTask with old | new
    · have kept := sound.tasks task old
      exact ⟨kept.accepted, fun fd' now => kept.closed fd' (opened now).2, kept.data⟩
    · obtain rfl := List.mem_singleton.mp new
      refine ⟨sound.known fd connection isOpen, fun fd' now => ?_, nonempty, short, rest, ?_⟩
      · exact (opened now).1 (sound.single fd' fd connection (opened now).2 isOpen)
      · rw [← unread]
        exact sound.fresh connection first
  case fresh =>
    intro other notTask
    change other ∉ (s.tasks ++ [NetTask.mk connection fd data]).map NetTask.connection
      at notTask
    rw [List.map_append, List.mem_append, not_or] at notTask
    have apart : other ≠ connection := fun same => notTask.2 (List.mem_singleton.mpr same)
    exact (Function.update_of_ne apart _ _).trans (sound.fresh other notTask.1)

theorem NetSound.clientSends (sound : NetSound s) (connection : Nat) (bytes : List UInt8) :
    NetSound { s with
      sent := Function.update s.sent connection (s.sent connection ++ bytes)
      unread := Function.update s.unread connection (s.unread connection ++ bytes) } := by
  constructor
  case events => exact sound.events
  case known => exact sound.known
  case single => exact sound.single
  case once => exact sound.once
  case tasks =>
    intro task isTask
    have kept := sound.tasks task isTask
    refine ⟨kept.accepted, kept.closed, kept.data.1, kept.data.2.1, ?_⟩
    by_cases same : task.connection = connection
    · refine kept.data.2.2.trans ?_
      dsimp only
      rw [same, Function.update_self]
      exact List.prefix_append _ _
    · dsimp only
      rw [Function.update_of_ne same]
      exact kept.data.2.2
  case fresh =>
    intro other notTask
    have before := sound.fresh other notTask
    dsimp only
    by_cases same : other = connection
    · subst same
      rw [Function.update_self, Function.update_self, before]
    · rw [Function.update_of_ne same, Function.update_of_ne same, before]

/-- A step keeps the invariant. -/
theorem NetStep.keeps (step : NetStep s s') (sound : NetSound s) : NetSound s' := by
  cases step with
  | wait events _ _ nodup reported => exact sound.wait nodup reported
  | accept fd handled free => exact sound.accept handled free
  | refuse handled => exact sound.refuse
  | accepted handled => exact sound.next handled
  | readData handled isOpen unread nonempty short =>
      exact sound.readData handled isOpen unread nonempty short
  | readEnd handled => exact sound.close handled
  | readAgain handled => exact sound.next handled
  | readError handled => exact sound.close handled
  | clientSends connection bytes => exact sound.clientSends connection bytes
  | clientEnds connection =>
      exact ⟨sound.events, sound.known, sound.single, sound.once, fun task isTask =>
        have kept := sound.tasks task isTask
        ⟨kept.accepted, kept.closed, kept.data⟩, sound.fresh⟩

theorem initialServer_sound : NetSound initialServer where
  events := EventsRight.reported List.nodup_nil nofun
  known := nofun
  single := nofun
  once := List.nodup_nil
  tasks := nofun
  fresh := fun _ _ => rfl

theorem NetRun.sound (run : NetRun initialServer s) : NetSound s := by
  induction run with
  | start => exact initialServer_sound
  | step _ step ih => exact step.keeps ih

end Invariant

/-- In every run the server pushes at most one task for each connection, of at most
`BUFFER_SIZE` bytes, which are what the client sent first; and what it reads and closes is
the connection that the event is about, or no longer open. -/
theorem netServer_tasks {s : NetServer} (run : NetRun initialServer s) :
    (s.tasks.map NetTask.connection).Nodup ∧ (∀ task ∈ s.tasks, TaskRight s task) ∧
      ∀ fd connection events, s.events = some (fd, connection) :: events →
        s.descriptors fd = some connection ∨ s.descriptors fd = none :=
  have sound := run.sound
  ⟨sound.once, sound.tasks, sound.events.head⟩

theorem netServer_tasks_oneClient :
    ∃ s : NetServer, s.tasks = [⟨0, 7, [104, 105]⟩] ∧
      (s.tasks.map NetTask.connection).Nodup := by
  have listening : NetRun initialServer _ := .step .start
    (.wait [none] rfl (by decide) (by decide) (by simp))
  have accepted := (listening.step (.accept 7 rfl rfl)).step (.accepted rfl)
  have sent := accepted.step (.clientSends 0 [104, 105] rfl)
  have reported := sent.step (.wait [some (7, 0)] rfl (by decide) (by decide) (by
    intro fd connection member
    cases List.mem_singleton.mp member
    rfl))
  have read := reported.step
    (@NetStep.readData _ [] 7 0 0 [104, 105] [] rfl rfl rfl (by decide) (by decide))
  exact ⟨_, rfl, (netServer_tasks read).1⟩

end NtShm
