import Mathlib.Tactic.Ring
import Mathlib.Tactic.Linarith

/-!
# Bytes and integers

A flat byte-addressed memory, with little-endian words of any width stored in
it: a client reads and writes words at computed addresses and uses the frame
lemmas below to show which other words and bytes survive.  Then the conversions
between the integer types of C.
-/

namespace NtShm

/-- A flat memory: one byte at every address. -/
abbrev Memory := Nat → UInt8

namespace Memory

/-- The little-endian word of `width` bytes at an address. -/
def load (memory : Memory) (address : Nat) : Nat → Nat
  | 0 => 0
  | width + 1 =>
      (memory address).toNat + 256 * load memory (address + 1) width

/-- Overwrite `width` bytes with the little-endian digits of `value`. -/
def store (memory : Memory) (address width value : Nat) : Memory :=
  fun position =>
    if address ≤ position ∧ position < address + width then
      UInt8.ofNat (value / 256 ^ (position - address))
    else memory position

/-- Overwrite `count` bytes with the bytes that `source` gives by offset. -/
def fill (memory : Memory) (address count : Nat) (source : Nat → UInt8) :
    Memory :=
  fun position =>
    if address ≤ position ∧ position < address + count then
      source (position - address)
    else memory position

/-- Copy `count` bytes from `source` to `target`, all of them read before any
of them is written. -/
def copy (memory : Memory) (target source count : Nat) : Memory :=
  memory.fill target count fun offset => memory (source + offset)

def bytes (memory : Memory) (address count : Nat) : List UInt8 :=
  (List.range count).map fun offset => memory (address + offset)

theorem bytes_eq {memory : Memory} {address : Nat} {list : List UInt8}
    (agree : ∀ offset (inRange : offset < list.length),
      memory (address + offset) = list[offset]) :
    memory.bytes address list.length = list := by
  apply List.ext_getElem
  · simp [bytes]
  · intro offset _ inRange
    simpa [bytes] using agree offset inRange

theorem load_lt (memory : Memory) (address width : Nat) :
    memory.load address width < 256 ^ width := by
  induction width generalizing address with
  | zero => simp [load]
  | succ width ih =>
      have byteBound := (memory address).toNat_lt
      have tailBound := ih (address + 1)
      rw [load, pow_succ]
      omega

theorem load_congr {first second : Memory} {address width : Nat}
    (agree : ∀ position, address ≤ position → position < address + width →
      second position = first position) :
    second.load address width = first.load address width := by
  induction width generalizing address with
  | zero => rfl
  | succ width ih =>
      have tail : second.load (address + 1) width =
          first.load (address + 1) width :=
        ih fun position low high => agree position (by omega) (by omega)
      simp only [load, tail, agree address (by omega) (by omega)]

theorem load_moved {first second : Memory} {source target width : Nat}
    (agree : ∀ offset, offset < width →
      second (target + offset) = first (source + offset)) :
    second.load target width = first.load source width := by
  induction width generalizing source target with
  | zero => rfl
  | succ width ih =>
      have head : second target = first source := agree 0 (by omega)
      have tail : second.load (target + 1) width =
          first.load (source + 1) width := by
        apply ih
        intro offset inRange
        have moved := agree (offset + 1) (by omega)
        rwa [← Nat.add_assoc, ← Nat.add_assoc, Nat.add_right_comm target,
          Nat.add_right_comm source] at moved
      simp only [load, head, tail]

theorem load_eq_zero {memory : Memory} {address width : Nat}
    (zero : ∀ position, address ≤ position → position < address + width →
      memory position = 0) : memory.load address width = 0 := by
  induction width generalizing address with
  | zero => rfl
  | succ width ih =>
      rw [load, zero address (by omega) (by omega),
        ih fun position low high => zero position (by omega) (by omega)]
      rfl

theorem store_of_outside {memory : Memory} {address width value position : Nat}
    (outside : position < address ∨ address + width ≤ position) :
    memory.store address width value position = memory position := by
  unfold store
  rw [if_neg (by omega)]

theorem fill_of_outside {memory : Memory} {address count position : Nat}
    {source : Nat → UInt8}
    (outside : position < address ∨ address + count ≤ position) :
    memory.fill address count source position = memory position := by
  unfold fill
  rw [if_neg (by omega)]

theorem fill_of_inside {memory : Memory} {address count offset : Nat}
    {source : Nat → UInt8} (inside : offset < count) :
    memory.fill address count source (address + offset) = source offset := by
  unfold fill
  rw [if_pos (by omega), Nat.add_sub_cancel_left]

theorem load_store_of_disjoint {memory : Memory}
    {address width value other otherWidth : Nat}
    (disjoint : other + otherWidth ≤ address ∨ address + width ≤ other) :
    (memory.store address width value).load other otherWidth =
      memory.load other otherWidth :=
  load_congr fun _ _ _ => store_of_outside (by omega)

theorem load_store_same {memory : Memory} {address width value : Nat}
    (fits : value < 256 ^ width) :
    (memory.store address width value).load address width = value := by
  induction width generalizing address value memory with
  | zero =>
      simp only [pow_zero, Nat.lt_one_iff] at fits
      simp [load, fits]
  | succ width ih =>
      have tailFits : value / 256 < 256 ^ width := by
        rw [pow_succ] at fits
        omega
      have tailBytes : (memory.store address (width + 1) value).load
            (address + 1) width =
          (memory.store (address + 1) width (value / 256)).load
            (address + 1) width := by
        apply load_congr
        intro position low high
        have shift : position - address = position - (address + 1) + 1 := by omega
        simp only [store]
        rw [if_pos (by omega), if_pos (by omega), shift, pow_succ',
          Nat.div_div_eq_div_mul]
      have headByte : (memory.store address (width + 1) value address).toNat =
          value % 256 := by
        simp [store]
      rw [load, tailBytes, ih tailFits, headByte]
      omega

end Memory

/-! ## Integers, and what functions return -/

/-- `SUCCEED`. -/
def succeed : Int := 0

/-- `FAIL`. -/
def fail : Int := -1

/-- An unsigned 32-bit word as an `int`. -/
def asInt (word : Nat) : Int := if word < 2 ^ 31 then word else word - 2 ^ 32

/-- The value of an `int` operation, if it is defined. -/
def intResult (value : Int) : Option Int :=
  if -2 ^ 31 ≤ value ∧ value < 2 ^ 31 then some value else none

/-- The `int` with the low 32 bits of a value. -/
def wrapInt (value : Int) : Int := asInt (value % 2 ^ 32).toNat

theorem intResult_eq_some {value : Int} (low : -2 ^ 31 ≤ value) (high : value < 2 ^ 31) :
    intResult value = some value := if_pos ⟨low, high⟩

theorem intResult_isSome {value : Int} :
    (intResult value).isSome ↔ -2 ^ 31 ≤ value ∧ value < 2 ^ 31 := by
  rw [intResult, Option.isSome_ite]

theorem wrapInt_of_int {value : Int} (low : -2 ^ 31 ≤ value) (high : value < 2 ^ 31) :
    wrapInt value = value := by
  rw [wrapInt, asInt]
  by_cases positive : 0 ≤ value
  · rw [if_pos (by omega)]
    omega
  · rw [if_neg (by omega)]
    omega

end NtShm
