import NtShm.LogRotation
import Mathlib.Data.Finset.Card
import Mathlib.Data.Fintype.Basic

/-!
# Locks of the semaphore set

All locks are semaphores of one set.  A counter of eight bits goes up with every lock
that is created and down with every `nt_mutex_destroy`, and the set is removed when
it comes to zero.
-/

namespace NtShm

inductive LockVar
  | logAccess
  | ntmapLock
  | syncLock
  | trendsLock
  | cacheLock
  | cacheIdsLock
  deriving DecidableEq

instance : Fintype LockVar where
  elems := {.logAccess, .ntmapLock, .syncLock, .trendsLock, .cacheLock, .cacheIdsLock}
  complete := by
    intro lock
    cases lock <;> decide

/-- `NT_MUTEX_NULL`. -/
def ntMutexNull : Int := -1

/-- `NT_MUTEX_COUNT`. -/
def ntMutexCount : Nat := 1

/-- The counter `mutexes`, and what the variables hold. -/
structure LockState where
  mutexes : UInt8
  value : LockVar → Int

/-- `nt_mutex_create`, which always succeeds. -/
def ntMutexCreate (s : LockState) (mutex : LockVar) (name : Nat) : LockState where
  mutexes := s.mutexes + 1
  value := Function.update s.value mutex name

/-- `nt_rwlock_create`, which always succeeds. -/
def ntRwlockCreate (s : LockState) (rwlock : LockVar) (name : Nat) : LockState where
  mutexes := s.mutexes + 1
  value := Function.update s.value rwlock (name + ntMutexCount : Nat)

/-- `nt_mutex_destroy`, and whether it removes the semaphore set. -/
def ntMutexDestroy (s : LockState) (mutex : LockVar) : LockState × Bool :=
  let mutexes := s.mutexes - 1
  (⟨mutexes, Function.update s.value mutex ntMutexNull⟩, mutexes == 0)

inductive LockOp
  | createMutex (mutex : LockVar) (name : Nat)
  | createRwlock (rwlock : LockVar) (name : Nat)
  | destroy (mutex : LockVar)
  deriving DecidableEq

namespace LockOp

def run (s : LockState) : LockOp → LockState
  | .createMutex mutex name => ntMutexCreate s mutex name
  | .createRwlock rwlock name => ntRwlockCreate s rwlock name
  | .destroy mutex => (ntMutexDestroy s mutex).1

def removes (s : LockState) : LockOp → Bool
  | .destroy mutex => (ntMutexDestroy s mutex).2
  | _ => false

def created : LockOp → Option LockVar
  | .createMutex mutex _ => some mutex
  | .createRwlock rwlock _ => some rwlock
  | .destroy _ => none

end LockOp

def initialLocks : LockState := ⟨0, fun _ => ntMutexNull⟩

def locksAfter (history : List LockOp) : LockState := history.foldl LockOp.run initialLocks

/-! ## Where locks are created and destroyed -/

/-- `LOG_TYPE_SYSTEM`. -/
def logTypeSystem : Int := 1

/-- `LOG_TYPE_FILE`. -/
def logTypeFile : Int := 2

/-- `LOG_TYPE_CONSOLE`. -/
def logTypeConsole : Int := 3

/-- `LOG_TYPE_UNDEFINED`. -/
def logTypeUndefined : Int := 0

/-- `NT_PROGRAM_TYPE_SERVER`. -/
def ntProgramTypeServer : UInt8 := 1

/-- The functions that use locks.  `arenas` says whether `init_sync_cache` gets its two
arenas. -/
inductive LockCall
  | openLog (type : Int) (filename : CString)
  | closeLog
  | initNtMap
  | initCache
  | initSyncCache (arenas : Bool)
  | freeSyncCache

namespace LockCall

/-- `log_type` after the call. -/
def logTypeAfter (logType : Int) : LockCall → Int
  | .openLog type _ => type
  | _ => logType

/-- The calls about locks that the function makes. -/
def ops (programType : UInt8) (logType : Int) : LockCall → List LockOp
  | .openLog type filename =>
      if type = logTypeSystem then []
      else if type = logTypeFile then
        if maxStringLen ≤ filename.length then [] else [.createMutex .logAccess 0]
      else if type = logTypeConsole ∨ type = logTypeUndefined then [.createMutex .logAccess 0]
      else []
  | .closeLog =>
      if logType = logTypeSystem then []
      else if logType = logTypeFile ∨ logType = logTypeConsole ∨ logType = logTypeUndefined then
        [.destroy .logAccess]
      else []
  | .initNtMap => [.createMutex .ntmapLock 2]
  | .initCache => [.createMutex .syncLock 2]
  | .initSyncCache arenas =>
      .createMutex .cacheLock 1 ::
        -- `init_trend_cache`, for a server
        if arenas ∧ programType &&& ntProgramTypeServer ≠ 0 then [.createMutex .trendsLock 2]
        else []
  | .freeSyncCache =>
      .destroy .cacheLock :: .destroy .cacheIdsLock ::
        if programType &&& ntProgramTypeServer ≠ 0 then [.destroy .trendsLock] else []

end LockCall

/-- The calls about locks in a sequence of calls of these functions. -/
def issued (programType : UInt8) : Int → List LockCall → List LockOp
  | _, [] => []
  | logType, call :: calls =>
      call.ops programType logType ++ issued programType (call.logTypeAfter logType) calls

/-! ## The semaphore set -/

/-- Every lock created has been destroyed since. -/
def AllDestroyed (history : List LockOp) : Prop :=
  ∀ before op after lock, history = before ++ op :: after → op.created = some lock →
    LockOp.destroy lock ∈ after

/-- The semaphore set is removed only when every lock created so far has been
destroyed. -/
def SetOutlives (history : List LockOp) : Prop :=
  ∀ before op after, history = before ++ op :: after → op.removes (locksAfter before) = true →
    AllDestroyed (before ++ [op])

def LockState.live (s : LockState) : Finset LockVar :=
  Finset.univ.filter fun lock => s.value lock ≠ ntMutexNull

/-- The counter keeps covering the live locks: it is not at its end where a lock is
created, and where a lock is destroyed that is not live, the counter is more than the
number of live ones. -/
def LockOp.Counted (s : LockState) : LockOp → Prop
  | .destroy mutex => mutex ∈ s.live ∨ s.live.card < s.mutexes.toNat
  | _ => s.mutexes ≠ 255

instance (s : LockState) (op : LockOp) : Decidable (op.Counted s) :=
  match op with
  | .createMutex _ _ => inferInstanceAs (Decidable (s.mutexes ≠ 255))
  | .createRwlock _ _ => inferInstanceAs (Decidable (s.mutexes ≠ 255))
  | .destroy mutex =>
      inferInstanceAs (Decidable (mutex ∈ s.live ∨ s.live.card < s.mutexes.toNat))

/-- Every call is counted in the state in which it is made. -/
def StepsCounted : LockState → List LockOp → Prop
  | _, [] => True
  | s, op :: ops => op.Counted s ∧ StepsCounted (op.run s) ops

instance decidableStepsCounted :
    (s : LockState) → (ops : List LockOp) → Decidable (StepsCounted s ops)
  | _, [] => inferInstanceAs (Decidable True)
  | s, op :: ops =>
      have := decidableStepsCounted (op.run s) ops
      inferInstanceAs (Decidable (op.Counted s ∧ StepsCounted (op.run s) ops))

section Counting

variable {s : LockState} {op : LockOp} {lock : LockVar} {history ops : List LockOp}

theorem mem_live : lock ∈ s.live ↔ s.value lock ≠ ntMutexNull := by
  simp [LockState.live]

theorem live_create {value : Int} (isLock : value ≠ ntMutexNull) (mutexes : UInt8) :
    (⟨mutexes, Function.update s.value lock value⟩ : LockState).live = insert lock s.live := by
  ext other
  rw [Finset.mem_insert, mem_live, mem_live]
  by_cases same : other = lock
  · simp [same, isLock]
  · simp [same]

theorem live_destroy (mutexes : UInt8) :
    (⟨mutexes, Function.update s.value lock ntMutexNull⟩ : LockState).live =
      s.live.erase lock := by
  ext other
  rw [Finset.mem_erase, mem_live, mem_live]
  by_cases same : other = lock
  · simp [same]
  · simp [same]

theorem live_of_destroyed : ((LockOp.destroy lock).run s).live = s.live.erase lock :=
  live_destroy _

theorem removes_of_one (isOne : s.mutexes = 1) : (LockOp.destroy lock).removes s = true := by
  rw [LockOp.removes, ntMutexDestroy, isOne]
  rfl

theorem live_of_created (creates : op.created = some lock) :
    (op.run s).live = insert lock s.live ∧ (op.run s).mutexes = s.mutexes + 1 := by
  have isLock : ∀ name : Nat, (name : Int) ≠ ntMutexNull := by
    intro name
    unfold ntMutexNull
    omega
  cases op with
  | createMutex mutex name =>
      cases creates
      exact ⟨live_create (isLock _) _, rfl⟩
  | createRwlock rwlock name =>
      cases creates
      exact ⟨live_create (isLock _) _, rfl⟩
  | destroy mutex => cases creates

theorem destroys_of_not_created (isCreated : op.created = none) :
    ∃ mutex, op = .destroy mutex := by
  cases op with
  | createMutex mutex name => cases isCreated
  | createRwlock rwlock name => cases isCreated
  | destroy mutex => exact ⟨mutex, rfl⟩

/-- A lock stays live until it is destroyed. -/
theorem live_of_not_destroyed (live : lock ∈ s.live) (kept : LockOp.destroy lock ∉ ops) :
    lock ∈ (ops.foldl LockOp.run s).live := by
  induction ops generalizing s with
  | nil => exact live
  | cons op ops ih =>
      rw [List.mem_cons, not_or] at kept
      apply ih _ kept.2
      cases isCreated : op.created with
      | some other =>
          rw [(live_of_created isCreated).1]
          exact Finset.mem_insert_of_mem live
      | none =>
          obtain ⟨mutex, rfl⟩ := destroys_of_not_created isCreated
          rw [live_of_destroyed, Finset.mem_erase]
          exact ⟨fun same => kept.1 (by rw [same]), live⟩

theorem allDestroyed_of_live_eq (noLock : (locksAfter history).live = ∅) :
    AllDestroyed history := by
  intro before op after lock split creates
  by_contra kept
  have live : lock ∈ (op.run (locksAfter before)).live := by
    rw [(live_of_created creates).1]
    exact Finset.mem_insert_self ..
  have stays := live_of_not_destroyed live kept
  rw [split, locksAfter, List.foldl_append, List.foldl_cons] at noLock
  rw [← locksAfter, Finset.eq_empty_iff_forall_notMem] at noLock
  exact noLock lock stays

/-- A live lock was created, and not destroyed since. -/
theorem created_of_live (live : lock ∈ (locksAfter history).live) :
    ∃ before op after, history = before ++ op :: after ∧ op.created = some lock ∧
      LockOp.destroy lock ∉ after := by
  induction history using List.reverseRecOn with
  | nil =>
      have noLock : initialLocks.live = ∅ := by decide
      rw [locksAfter, List.foldl_nil, noLock] at live
      cases Finset.notMem_empty _ live
  | append_singleton history op ih =>
      rw [locksAfter, List.foldl_append, List.foldl_cons, List.foldl_nil, ← locksAfter] at live
      by_cases creates : op.created = some lock
      · exact ⟨history, op, [], rfl, creates, List.not_mem_nil⟩
      · have earlier : lock ∈ (locksAfter history).live ∧ op ≠ .destroy lock := by
          cases isCreated : op.created with
          | some other =>
              rw [(live_of_created isCreated).1, Finset.mem_insert] at live
              refine ⟨live.resolve_left fun same => creates (by rw [isCreated, same]), ?_⟩
              rintro rfl
              cases isCreated
          | none =>
              obtain ⟨mutex, rfl⟩ := destroys_of_not_created isCreated
              rw [live_of_destroyed, Finset.mem_erase] at live
              exact ⟨live.2, fun same => live.1 (LockOp.destroy.inj same).symm⟩
        obtain ⟨before, creation, after, rfl, isCreation, kept⟩ := ih earlier.1
        refine ⟨before, creation, after ++ [op], by simp, isCreation, ?_⟩
        rw [List.mem_append, List.mem_singleton, not_or]
        exact ⟨kept, earlier.2.symm⟩

theorem covers_of_created (creates : op.created = some lock) (notFull : s.mutexes ≠ 255)
    (covers : s.live.card ≤ s.mutexes.toNat) :
    (op.run s).live.card ≤ (op.run s).mutexes.toNat := by
  obtain ⟨live, mutexes⟩ := live_of_created creates
  have more : (s.mutexes + 1).toNat = s.mutexes.toNat + 1 := by
    have below := s.mutexes.toNat_lt
    have differs : s.mutexes.toNat ≠ 255 := fun same => notFull (UInt8.toNat_inj.mp same)
    rw [UInt8.toNat_add, show (1 : UInt8).toNat = 1 from rfl]
    omega
  have atMost := Finset.card_insert_le lock s.live
  rw [live, mutexes, more]
  omega

theorem sub_one_toNat {counter : UInt8} (positive : 0 < counter.toNat) :
    (counter - 1).toNat = counter.toNat - 1 := by
  have one : (1 : UInt8) ≤ counter := UInt8.le_iff_toNat_le.mpr positive
  rw [UInt8.toNat_sub_of_le _ _ one]
  rfl

/-- One call keeps the counter at the number of live locks at least. -/
theorem counted_covers (counted : op.Counted s) (covers : s.live.card ≤ s.mutexes.toNat) :
    (op.run s).live.card ≤ (op.run s).mutexes.toNat := by
  cases op with
  | createMutex mutex name => exact covers_of_created rfl counted covers
  | createRwlock rwlock name => exact covers_of_created rfl counted covers
  | destroy mutex =>
      rw [live_of_destroyed, LockOp.run, ntMutexDestroy]
      rcases counted with live | spare
      · have positive := Finset.card_pos.mpr ⟨mutex, live⟩
        rw [Finset.card_erase_of_mem live, sub_one_toNat (by omega)]
        omega
      · have atMost := Finset.card_erase_le (s := s.live) (a := mutex)
        rw [sub_one_toNat (by omega)]
        omega

theorem StepsCounted.covers (counted : StepsCounted s (history ++ ops))
    (covers : s.live.card ≤ s.mutexes.toNat) :
    (history.foldl LockOp.run s).live.card ≤ (history.foldl LockOp.run s).mutexes.toNat ∧
      StepsCounted (history.foldl LockOp.run s) ops := by
  induction history generalizing s with
  | nil => exact ⟨covers, counted⟩
  | cons op history ih => exact ih counted.2 (counted_covers counted.1 covers)

/-- The call that removes the set destroys the last live lock. -/
theorem counted_removes (counted : op.Counted s)
    (covers : s.live.card ≤ s.mutexes.toNat) (removes : op.removes s = true) :
    (op.run s).live = ∅ := by
  cases op with
  | createMutex mutex name => cases removes
  | createRwlock rwlock name => cases removes
  | destroy mutex =>
      have isZero : s.mutexes - 1 = 0 := by simpa [LockOp.removes, ntMutexDestroy] using removes
      have isOne : s.mutexes = 1 := by
        rw [← UInt8.sub_add_cancel s.mutexes 1, isZero]
        rfl
      rw [isOne] at covers
      rw [live_of_destroyed]
      rcases counted with live | spare
      · have only := Finset.card_le_one.mp covers
        ext other
        simp only [Finset.mem_erase, Finset.notMem_empty, iff_false, not_and]
        exact fun differs isLive => differs (only other isLive mutex live)
      · rw [isOne] at spare
        have noLock : s.live = ∅ := Finset.card_eq_zero.mp (by
          have one : (1 : UInt8).toNat = 1 := rfl
          omega)
        rw [noLock, Finset.erase_empty]

theorem StepsCounted.setOutlives (counted : StepsCounted initialLocks history) :
    SetOutlives history := by
  have covers : initialLocks.live.card ≤ initialLocks.mutexes.toNat := by decide
  rintro before op after rfl removes
  obtain ⟨covers', counted'⟩ := counted.covers covers
  apply allDestroyed_of_live_eq
  rw [locksAfter, List.foldl_append]
  exact counted_removes counted'.1 covers' removes

def RightlyUsed : LockState → List LockOp → Prop
  | _, [] => True
  | s, op :: ops => (∀ lock, op = .destroy lock → lock ∈ s.live) ∧ RightlyUsed (op.run s) ops

def RemovesUnderLive (s : LockState) (ops : List LockOp) : Prop :=
  ∃ before op, ops = before ++ [op] ∧ op.removes (before.foldl LockOp.run s) = true ∧
    (op.run (before.foldl LockOp.run s)).live.Nonempty

theorem RemovesUnderLive.cons (removes : RemovesUnderLive (op.run s) ops) :
    RemovesUnderLive s (op :: ops) := by
  obtain ⟨before, last, rfl, removes, live⟩ := removes
  exact ⟨op :: before, last, rfl, removes, live⟩

/-- If there are more live locks than counted, the set is removed too early when they
are destroyed one after the other. -/
theorem removesUnderLive_of_more {counter : Nat} (isCounter : s.mutexes.toNat = counter + 1)
    (more : counter + 1 < s.live.card) :
    ∃ ops, RightlyUsed s ops ∧ RemovesUnderLive s ops := by
  induction counter generalizing s with
  | zero =>
      obtain ⟨lock, live⟩ := Finset.card_pos.mp (Nat.zero_lt_of_lt more)
      have isOne : s.mutexes = 1 := UInt8.toNat_inj.mp isCounter
      refine ⟨[.destroy lock], ⟨fun _ same => LockOp.destroy.inj same ▸ live, trivial⟩,
        [], .destroy lock, rfl, removes_of_one isOne, ?_⟩
      rw [List.foldl_nil, live_of_destroyed, ← Finset.card_pos, Finset.card_erase_of_mem live]
      omega
  | succ counter ih =>
      obtain ⟨lock, live⟩ := Finset.card_pos.mp (Nat.zero_lt_of_lt more)
      have counter' : ((LockOp.destroy lock).run s).mutexes.toNat = counter + 1 := by
        change (s.mutexes - 1).toNat = counter + 1
        rw [sub_one_toNat (by omega), isCounter]
        rfl
      obtain ⟨ops, used, removes⟩ := ih counter' (by
        rw [live_of_destroyed, Finset.card_erase_of_mem live]
        omega)
      exact ⟨.destroy lock :: ops, ⟨fun _ same => LockOp.destroy.inj same ▸ live, used⟩,
        removes.cons⟩

/-- If the counter comes round to 0 with a lock live, the next lock that is created and
destroyed removes the set. -/
theorem removesUnderLive_of_zero (isZero : s.mutexes = 0) (live : lock ∈ s.live) :
    ∃ ops, RightlyUsed s ops ∧ RemovesUnderLive s ops := by
  obtain ⟨other, differs⟩ : ∃ other, other ≠ lock := by
    cases lock with
    | logAccess => exact ⟨.syncLock, nofun⟩
    | _ => exact ⟨.logAccess, nofun⟩
  have created := @live_of_created s (.createMutex other 0) other rfl
  refine ⟨[.createMutex other 0, .destroy other], ⟨nofun, ?_, trivial⟩,
    [.createMutex other 0], .destroy other, rfl, removes_of_one ?_, lock, ?_⟩
  · intro destroyed same
    cases same
    rw [created.1]
    exact Finset.mem_insert_self ..
  · rw [List.foldl_cons, List.foldl_nil, created.2, isZero]
    rfl
  · rw [live_of_destroyed, List.foldl_cons, List.foldl_nil, created.1]
    exact Finset.mem_erase.mpr ⟨differs.symm, Finset.mem_insert_of_mem live⟩

/-- If the counter is below 0, the locks that are created next bring it back there. -/
theorem removesUnderLive_of_full (isFull : s.mutexes = 255) :
    ∃ ops, RightlyUsed s ops ∧ RemovesUnderLive s ops := by
  have created := @live_of_created s (.createMutex .logAccess 0) .logAccess rfl
  have isZero : ((LockOp.createMutex .logAccess 0).run s).mutexes = 0 := by
    rw [created.2, isFull]
    rfl
  have live : LockVar.logAccess ∈ ((LockOp.createMutex .logAccess 0).run s).live := by
    rw [created.1]
    exact Finset.mem_insert_self ..
  obtain ⟨ops, used, removes⟩ := removesUnderLive_of_zero isZero live
  exact ⟨.createMutex .logAccess 0 :: ops, ⟨nofun, used⟩, removes.cons⟩

/-- After a call that is not counted, the set may be removed under a live lock although
locks are used rightly from then on. -/
theorem removesUnderLive_of_not_counted (covers : s.live.card ≤ s.mutexes.toNat)
    (uncounted : ¬ op.Counted s) :
    ∃ ops, RightlyUsed (op.run s) ops ∧ RemovesUnderLive s (op :: ops) := by
  suffices later : op.removes s = true ∧ (op.run s).live.Nonempty ∨
      ∃ ops, RightlyUsed (op.run s) ops ∧ RemovesUnderLive (op.run s) ops by
    rcases later with ⟨removes, live⟩ | ⟨ops, used, removes⟩
    · exact ⟨[], trivial, [], op, rfl, removes, live⟩
    · exact ⟨ops, used, removes.cons⟩
  have wraps : ∀ lock, op.created = some lock → s.mutexes = 255 →
      ∃ ops, RightlyUsed (op.run s) ops ∧ RemovesUnderLive (op.run s) ops := by
    intro lock creates full
    have created := @live_of_created s op lock creates
    have isZero : (op.run s).mutexes = 0 := by
      rw [created.2, full]
      rfl
    have live : lock ∈ (op.run s).live := by
      rw [created.1]
      exact Finset.mem_insert_self ..
    exact removesUnderLive_of_zero isZero live
  cases op with
  | createMutex mutex name => exact .inr (wraps mutex rfl (not_not.mp uncounted))
  | createRwlock rwlock name => exact .inr (wraps rwlock rfl (not_not.mp uncounted))
  | destroy mutex =>
      obtain ⟨notLive, spare⟩ := not_or.mp uncounted
      have live' : ((LockOp.destroy mutex).run s).live = s.live := by
        rw [live_of_destroyed, Finset.erase_eq_of_notMem notLive]
      rcases Nat.lt_trichotomy s.mutexes.toNat 1 with below | one | above
      · have isZero : s.mutexes = 0 := UInt8.toNat_inj.mp (by simpa using below)
        apply Or.inr
        apply removesUnderLive_of_full
        change s.mutexes - 1 = 255
        rw [isZero]
        rfl
      · have isOne : s.mutexes = 1 := UInt8.toNat_inj.mp one
        refine .inl ⟨removes_of_one isOne, ?_⟩
        rw [live', ← Finset.card_pos]
        omega
      · apply Or.inr
        have counter : ((LockOp.destroy mutex).run s).mutexes.toNat =
            s.mutexes.toNat - 2 + 1 := by
          change (s.mutexes - 1).toNat = _
          rw [sub_one_toNat (by omega)]
          omega
        apply removesUnderLive_of_more counter
        rw [live']
        omega

theorem RemovesUnderLive.not_setOutlives (removes : RemovesUnderLive (locksAfter history) ops) :
    ¬ SetOutlives (history ++ ops) := by
  intro outlives
  obtain ⟨before, last, rfl, removes, lock, live⟩ := removes
  rw [locksAfter, ← List.foldl_append, ← locksAfter] at removes live
  have destroyed := outlives (history ++ before) last [] (by simp) removes
  have live' : lock ∈ (locksAfter (history ++ before ++ [last])).live := by
    rwa [locksAfter, List.foldl_append]
  obtain ⟨earlier, creation, after, split, isCreation, kept⟩ := created_of_live live'
  exact kept (destroyed earlier creation after lock split isCreation)

/-- The first call that is not counted can be followed by right uses of locks such that
the set does not outlive its locks. -/
theorem exists_not_setOutlives (counted : StepsCounted initialLocks history)
    (uncounted : ¬ op.Counted (locksAfter history)) :
    ∃ ops, RightlyUsed (op.run (locksAfter history)) ops ∧
      ¬ SetOutlives (history ++ op :: ops) := by
  have counted' : StepsCounted initialLocks (history ++ []) := by rwa [List.append_nil]
  obtain ⟨covers, -⟩ := counted'.covers (by decide)
  obtain ⟨ops, used, removes⟩ := removesUnderLive_of_not_counted covers uncounted
  exact ⟨ops, used, removes.not_setOutlives⟩

end Counting

/-- While every call is counted, the semaphore set outlives its locks. -/
theorem issued_setOutlives (programType : UInt8) (calls : List LockCall)
    (counted : StepsCounted initialLocks (issued programType logTypeUndefined calls)) :
    SetOutlives (issued programType logTypeUndefined calls) :=
  counted.setOutlives

/-- The set is removed when the log is closed for the second time. -/
theorem issued_setOutlives_reopened :
    ∃ history, issued ntProgramTypeServer logTypeUndefined
        [.openLog logTypeFile (longName 8), .closeLog, .openLog logTypeConsole (longName 8),
          .closeLog] = history ++ [.destroy .logAccess] ∧
      (LockOp.destroy .logAccess).removes (locksAfter history) = true ∧
      SetOutlives (history ++ [.destroy .logAccess]) := by
  let calls : List LockCall :=
    [.openLog logTypeFile (longName 8), .closeLog, .openLog logTypeConsole (longName 8),
      .closeLog]
  have opened : issued ntProgramTypeServer logTypeUndefined calls =
      [.createMutex .logAccess 0, .destroy .logAccess, .createMutex .logAccess 0] ++
        [.destroy .logAccess] := by decide
  have outlives := issued_setOutlives ntProgramTypeServer calls (by decide)
  rw [opened] at outlives
  exact ⟨_, opened, by decide, outlives⟩

/-- `free_sync_cache` destroys `cache_ids_lock`, which `init_sync_cache` does not create,
and the set is removed while the log is open. -/
theorem issued_removesUnderLog :
    ¬ SetOutlives (issued ntProgramTypeServer logTypeUndefined
      [.openLog logTypeFile (longName 8), .initSyncCache true, .freeSyncCache]) := by
  intro outlives
  have destroyed := outlives
    [.createMutex .logAccess 0, .createMutex .cacheLock 1, .createMutex .trendsLock 2,
      .destroy .cacheLock, .destroy .cacheIdsLock] (.destroy .trendsLock) [] (by decide)
    (by decide)
  have logDestroyed := destroyed [] _ _ .logAccess rfl rfl
  revert logDestroyed
  decide

end NtShm
