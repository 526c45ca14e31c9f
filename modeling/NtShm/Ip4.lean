import NtShm.CStrings
import NtShm.SeparatedGroups

/-!
# Addresses in dotted notation

`is_ip4` counts the digits of the group that it is in and the dots before it, and
leaves its loop where a group cannot be right.  Whether the string is an address is
decided after the loop, from what the counters are then.
-/

namespace NtShm

/-- `isdigit`. -/
def isdigit (byte : UInt8) : Bool := decide (48 ≤ byte.toNat ∧ byte.toNat ≤ 57)

/-- The variables of `is_ip4`. -/
structure Ip4Scan where
  digits : Int
  dots : Int
  octet : Int
  deriving DecidableEq

/-- The loop of `is_ip4`, without a result where a counter overflows; `octet` wraps. -/
def ip4Loop : List UInt8 → Ip4Scan → Option Ip4Scan
  | [], s => some s
  | byte :: bytes, s =>
      if isdigit byte then do
        let octet := wrapInt (s.octet * 10 + (byte.toNat - 48))
        let digits ← intResult (s.digits + 1)
        ip4Loop bytes { s with digits := digits, octet := octet }
      else if byte = 46 then
        if s.digits = 0 ∨ 3 < s.digits ∨ 255 < s.octet then some s
        else do
          let dots ← intResult (s.dots + 1)
          ip4Loop bytes ⟨0, dots, 0⟩
      else some { s with digits := 0 }

def Ip4Scan.accepted (s : Ip4Scan) : Bool :=
  decide (s.dots = 3 ∧ 1 ≤ s.digits ∧ s.digits ≤ 3 ∧ s.octet ≤ 255)

/-- `is_ip4`. -/
def isIp4 (ip : CString) : Option Int := do
  let s ← ip4Loop ip.bytes ⟨0, 0, 0⟩
  some (if s.accepted then 0 else -1)

def decimal (digits : List UInt8) : Nat :=
  digits.foldl (fun value digit => 10 * value + (digit.toNat - 48)) 0

structure IsOctet (group : List UInt8) : Prop where
  digits : ∀ byte ∈ group, isdigit byte = true
  size : 1 ≤ group.length ∧ group.length ≤ 3
  value : decimal group ≤ 255

def DottedQuad (ip : CString) : Prop := Separated IsOctet 46 4 ip.bytes

section Scan

variable {group bytes : List UInt8} {byte : UInt8} {s : Ip4Scan}

theorem decimal_concat (group : List UInt8) (byte : UInt8) :
    decimal (group ++ [byte]) = 10 * decimal group + (byte.toNat - 48) := by
  rw [decimal, List.foldl_append]
  rfl

theorem decimal_lt (digits : ∀ byte ∈ group, isdigit byte = true) :
    decimal group < 10 ^ group.length := by
  induction group using List.reverseRecOn with
  | nil => decide
  | append_singleton group byte ih =>
      have bound := ih fun other isOther => digits other (List.mem_append_left _ isOther)
      have isDigit := digits byte (by simp)
      rw [isdigit, decide_eq_true_iff] at isDigit
      rw [decimal_concat, List.length_append, List.length_singleton, pow_succ]
      omega

/-- The scanner is in a group: its counters are those of the digits read.  A value of
more than three digits may have wrapped. -/
structure InGroup (group : List UInt8) (dots : Nat) (s : Ip4Scan) : Prop where
  members : ∀ byte ∈ group, isdigit byte = true
  digits : s.digits = group.length
  dots : s.dots = dots
  octet : group.length ≤ 3 → s.octet = decimal group

theorem InGroup.start (dots : Nat) : InGroup [] dots ⟨0, dots, 0⟩ :=
  ⟨by simp, rfl, rfl, fun _ => rfl⟩

theorem isOctet_of_members (members : ∀ byte ∈ group, isdigit byte = true) :
    IsOctet group ↔ 1 ≤ group.length ∧ group.length ≤ 3 ∧ decimal group ≤ 255 :=
  ⟨fun octet => ⟨octet.size.1, octet.size.2, octet.value⟩,
    fun right => ⟨members, ⟨right.1, right.2.1⟩, right.2.2⟩⟩

/-- The tests at a dot and at the end see whether the group is right. -/
theorem InGroup.isOctet_iff {dots : Nat} (inGroup : InGroup group dots s) :
    IsOctet group ↔ 1 ≤ s.digits ∧ s.digits ≤ 3 ∧ s.octet ≤ 255 := by
  rw [isOctet_of_members inGroup.members, inGroup.digits]
  by_cases short : group.length ≤ 3
  · rw [inGroup.octet short]
    omega
  · omega

theorem InGroup.digit {dots : Nat} (inGroup : InGroup group dots s)
    (isDigit : isdigit byte = true) :
    InGroup (group ++ [byte]) dots
      { s with
        digits := s.digits + 1
        octet := wrapInt (s.octet * 10 + (byte.toNat - 48)) } := by
  have bound := decimal_lt inGroup.members
  have range := isDigit
  rw [isdigit, decide_eq_true_iff] at range
  refine ⟨?_, ?_, inGroup.dots, fun short => ?_⟩
  · intro other isOther
    rcases List.mem_append.mp isOther with inGroup' | isLast
    · exact inGroup.members other inGroup'
    · rw [List.mem_singleton.mp isLast]
      exact isDigit
  · rw [List.length_append, List.length_singleton, inGroup.digits]
    rfl
  · rw [List.length_append, List.length_singleton] at short
    have small : 10 ^ group.length ≤ 10 ^ 2 := Nat.pow_le_pow_right (by decide) (by omega)
    change wrapInt (s.octet * 10 + (byte.toNat - 48)) = _
    rw [inGroup.octet (by omega), decimal_concat, wrapInt_of_int (by omega) (by omega)]
    omega

theorem InGroup.accepted_iff {dots : Nat} (inGroup : InGroup group dots s) :
    s.accepted = true ↔ Separated IsOctet 46 (4 - dots) group := by
  rw [separated_single inGroup.members (by decide), inGroup.isOctet_iff, Ip4Scan.accepted,
    decide_eq_true_iff, inGroup.dots]
  refine and_congr ?_ Iff.rfl
  omega

/-- At a dot the group is one of those still to come, and the others follow. -/
theorem InGroup.dot {dots : Nat} (inGroup : InGroup group dots s) :
    Separated IsOctet 46 (4 - dots) (group ++ 46 :: bytes) ↔
      IsOctet group ∧ Separated IsOctet 46 (4 - (dots + 1)) bytes := by
  have sound : ∀ group, IsOctet group → ∀ byte ∈ group, isdigit byte = true :=
    fun _ octet => octet.digits
  by_cases more : dots < 4
  · rw [show 4 - dots = 4 - (dots + 1) + 1 by omega]
    exact separated_first sound inGroup.members (by decide)
  · rw [show 4 - (dots + 1) = 0 by omega, show 4 - dots = 0 by omega]
    exact (and_iff_right_of_imp False.elim).symm

/-- The loop ends in a state that is accepted if and only if the groups still to come
are right. -/
theorem ip4Loop_spec {dots : Nat} (inGroup : InGroup group dots s)
    (short : group.length + dots + bytes.length < 2 ^ 31) :
    ∃ s', ip4Loop bytes s = some s' ∧
      (s'.accepted = true ↔ Separated IsOctet 46 (4 - dots) (group ++ bytes)) := by
  induction bytes generalizing group dots s with
  | nil =>
      rw [List.append_nil]
      exact ⟨s, rfl, inGroup.accepted_iff⟩
  | cons byte bytes ih =>
      rw [List.length_cons] at short
      have digits := inGroup.digits
      by_cases isDigit : isdigit byte = true
      · have counted : intResult (s.digits + 1) = some (s.digits + 1) :=
          intResult_eq_some (by omega) (by omega)
        obtain ⟨s', loops, accepted⟩ := ih (inGroup.digit isDigit)
          (by rw [List.length_append, List.length_singleton]; omega)
        refine ⟨s', ?_, by rw [accepted, ← List.append_cons]⟩
        rw [ip4Loop, if_pos isDigit, counted]
        exact loops
      · by_cases isDot : byte = 46
        · subst isDot
          rw [ip4Loop, if_neg isDigit, if_pos rfl]
          by_cases bad : s.digits = 0 ∨ 3 < s.digits ∨ 255 < s.octet
          · have notOctet : ¬ IsOctet group := by
              rw [inGroup.isOctet_iff]
              omega
            refine ⟨s, if_pos bad, ?_⟩
            rw [Ip4Scan.accepted, decide_eq_true_iff, inGroup.dot]
            exact iff_of_false (by omega) fun right => notOctet right.1
          · have octet : IsOctet group := by
              rw [inGroup.isOctet_iff]
              omega
            have isDots := inGroup.dots
            have counted : intResult (s.dots + 1) = some ((dots + 1 : Nat) : Int) := by
              rw [isDots]
              exact intResult_eq_some (by omega) (by omega)
            obtain ⟨s', loops, accepted⟩ := ih (InGroup.start (dots + 1))
              (by rw [List.length_nil]; omega)
            refine ⟨s', ?_, ?_⟩
            · rw [if_neg bad, counted]
              exact loops
            · rw [accepted, List.nil_append, inGroup.dot]
              exact (and_iff_right octet).symm
        · refine ⟨{ s with digits := 0 }, ?_, ?_⟩
          · rw [ip4Loop, if_neg isDigit, if_neg isDot]
          · refine iff_of_false (by simp [Ip4Scan.accepted]) fun separated => ?_
            rcases separated.mem (fun _ octet => octet.digits) byte (by simp) with
              isDigit' | isDot'
            · exact isDigit isDigit'
            · exact isDot isDot'

end Scan

/-- `is_ip4` accepts exactly the dotted quads. -/
theorem isIp4_iff (ip : CString) (short : ip.length < 2 ^ 31) :
    (isIp4 ip = some 0 ↔ DottedQuad ip) ∧ (isIp4 ip = some (-1) ↔ ¬ DottedQuad ip) := by
  obtain ⟨s, loops, accepted⟩ := @ip4Loop_spec [] ip.bytes ⟨0, 0, 0⟩ 0 (InGroup.start 0)
    (by simpa [CString.length] using short)
  have isQuad : s.accepted = true ↔ DottedQuad ip := accepted
  have decides : isIp4 ip = some (if s.accepted then 0 else -1) := by
    rw [isIp4, loops]
    rfl
  rw [decides, ← isQuad]
  cases s.accepted <;> simp

/-- The string `127.0.0.1`. -/
theorem dottedQuad_loopback :
    DottedQuad ⟨[49, 50, 55, 46, 48, 46, 48, 46, 49], by decide⟩ :=
  (isIp4_iff _ (by decide)).1.mp (by decide)

end NtShm
