import NtShm.PtclFrames

/-!
# What is read of a received frame

`ntptcl_handle` takes the length from the frame and never looks at `rlen`.
This module finds the frames of which nothing past `rlen` is read.
-/

namespace NtShm

/-- The frame is too short for its headers, or for the length in them. -/
def TooShort (mem : Memory) (rlen : Nat) : Prop :=
  rlen < 68 ∨ rlen < 68 + mem.load 16 4

/-- Nothing past `rlen` is read, and a frame that is too short is reported. -/
def HandledSafely (digest : List UInt8 → Digest) (ntLogLevel : Int)
    (mem : Memory) (rlen : Nat) : Prop :=
  (ntptclHandle digest ntLogLevel mem rlen).ReadsBelow mem rlen ∧
    (TooShort mem rlen →
      (ntptclHandle digest ntLogLevel mem rlen).ckcodeDiffers = true)

section Reads

variable {digest : List UInt8 → Digest} {ntLogLevel : Int} {mem : Memory}
  {rlen bound : Nat}

/-- The headers and the announced data are always read. -/
theorem announced_le_of_readsBelow
    (below : (ntptclHandle digest ntLogLevel mem rlen).ReadsBelow mem bound) :
    68 + mem.load 16 4 ≤ bound := by
  have lenLt : mem.load 16 4 < 2 ^ 32 := Memory.load_lt mem 16 4
  by_cases empty : mem.load 16 4 = 0
  · have typeRead := below (.bytes 64 4) (by simp [ntptclHandle, ntptcliSize,
      ntptcliiSize]) 67 ⟨by omega, by omega⟩
    omega
  · have hashed : Access.bytes 68 (mem.load 16 4) ∈
        (ntptclHandle digest ntLogLevel mem rlen).accesses := by
      have kept : mem.load 16 4 % 2 ^ 32 = mem.load 16 4 :=
        Nat.mod_eq_of_lt lenLt
      simp only [ntptclHandle, ntptcliSize, ntptcliiSize, ntptcliLen, kept]
      simp
    have lastRead := below _ hashed (68 + mem.load 16 4 - 1)
      ⟨by omega, by omega⟩
    omega

theorem tail_accessed (traced : 5 ≤ ntLogLevel) :
    Access.string (68 + mem.load 16 4) ∈
      (ntptclHandle digest ntLogLevel mem rlen).accesses := by
  apply List.mem_append_right
  apply List.mem_flatMap.mpr
  refine ⟨.frame 0 (asInt (mem.load 16 4)) (asInt (mem.load 64 4)) 68
    (68 + mem.load 16 4), ?_, by simp [LogLine.strings]⟩
  rw [List.mem_filter, decide_eq_true_eq]
  constructor
  · exact List.mem_append_right _ (List.mem_singleton.mpr rfl)
  · simp only [LogLine.Printed, LogLine.level]
    omega

theorem tail_ends_of_readsBelow (traced : 5 ≤ ntLogLevel)
    (below : (ntptclHandle digest ntLogLevel mem rlen).ReadsBelow mem bound) :
    ∃ stop, 68 + mem.load 16 4 ≤ stop ∧ stop < bound ∧ mem stop = 0 := by
  have announced := announced_le_of_readsBelow below
  by_contra unended
  have pastRead : bound < bound := by
    apply below _ (tail_accessed traced)
    constructor
    · exact announced
    · intro earlier inRange nul
      exact unended ⟨_, by omega, by omega, nul⟩
  exact lt_irrefl _ pastRead

end Reads

/-- A frame is handled safely if and only if its announced data lie within what
was received and, where the tail is logged, a NUL follows them there. -/
theorem handledSafely_iff (digest : List UInt8 → Digest) (ntLogLevel : Int)
    (mem : Memory) (rlen : Nat) :
    HandledSafely digest ntLogLevel mem rlen ↔
      68 + mem.load 16 4 ≤ rlen ∧
        (5 ≤ ntLogLevel →
          ∃ stop, 68 + mem.load 16 4 ≤ stop ∧ stop < rlen ∧ mem stop = 0) := by
  constructor
  · rintro ⟨below, -⟩
    exact ⟨announced_le_of_readsBelow below,
      fun traced => tail_ends_of_readsBelow traced below⟩
  · rintro ⟨announced, ended⟩
    constructor
    · exact ntptclHandle_readsBelow digest ntLogLevel rlen announced ended
    · intro short
      unfold TooShort at short
      omega

/-- Sixty-eight bytes that announce a thousand more. -/
theorem handledSafely_fails :
    ¬HandledSafely (fun _ => Vector.replicate 20 0) 3
      (Memory.store (fun _ => 0) 16 4 1000) 68 := by
  rintro ⟨below, -⟩
  have announced := announced_le_of_readsBelow below
  rw [Memory.load_store_same (by decide)] at announced
  omega

end NtShm
