import NtShm.BlockStream
import NtShm.PtclFrames
import Mathlib.Logic.Function.Iterate
import Mathlib.Tactic.IntervalCases

/-!
# The block function of SHA-1

`SHA1Transform` expands a block in place, in sixteen words, and instead of moving the five
working variables it gives them to its rounds in turn.  The standard has a schedule of
eighty words and moves the variables.
-/

namespace NtShm

/-- `rol`. -/
def rol (value bits : UInt32) : UInt32 := (value <<< bits) ||| (value >>> (32 - bits))

/-- The working variables of `SHA1Transform`. -/
inductive Sha1Var
  | a | b | c | d | e
  deriving DecidableEq

/-- The values of the working variables.  `state[0]` to `state[4]` are kept under the names
of the variables that they are copied to. -/
structure Sha1Vars where
  a : UInt32
  b : UInt32
  c : UInt32
  d : UInt32
  e : UInt32
  deriving DecidableEq

namespace Sha1Vars

def get (vars : Sha1Vars) : Sha1Var → UInt32
  | .a => vars.a
  | .b => vars.b
  | .c => vars.c
  | .d => vars.d
  | .e => vars.e

def set (vars : Sha1Vars) (value : UInt32) : Sha1Var → Sha1Vars
  | .a => { vars with a := value }
  | .b => { vars with b := value }
  | .c => { vars with c := value }
  | .d => { vars with d := value }
  | .e => { vars with e := value }

def add (first second : Sha1Vars) : Sha1Vars :=
  ⟨first.a + second.a, first.b + second.b, first.c + second.c, first.d + second.d,
    first.e + second.e⟩

end Sha1Vars

/-- The working variables and `block->l`. -/
structure Sha1Work where
  vars : Sha1Vars
  l : Vector UInt32 16

/-- `i & 15`. -/
def wordIndex (i : Nat) : Fin 16 := Fin.ofNat 16 i

/-- The word that a little-endian machine has in four bytes. -/
def littleEndian (b0 b1 b2 b3 : UInt8) : UInt32 :=
  b0.toUInt32 ||| (b1.toUInt32 <<< 8) ||| (b2.toUInt32 <<< 16) ||| (b3.toUInt32 <<< 24)

/-- `memcpy(block, buffer, 64)`, seen as words. -/
def blockWords (buffer : List UInt8) : Vector UInt32 16 :=
  Vector.ofFn fun i => littleEndian (buffer.getD (4 * i) 0) (buffer.getD (4 * i + 1) 0)
    (buffer.getD (4 * i + 2) 0) (buffer.getD (4 * i + 3) 0)

/-- `blk0(i)`, where `block->l[i]` becomes the value. -/
def blk0 (l : Vector UInt32 16) (i : Nat) : UInt32 :=
  (rol l[wordIndex i] 24 &&& 0xFF00FF00) ||| (rol l[wordIndex i] 8 &&& 0x00FF00FF)

/-- `blk(i)`, where `block->l[i & 15]` becomes the value. -/
def blk (l : Vector UInt32 16) (i : Nat) : UInt32 :=
  rol (l[wordIndex (i + 13)] ^^^ l[wordIndex (i + 8)] ^^^ l[wordIndex (i + 2)] ^^^
    l[wordIndex i]) 1

/-- What the macros `R0` to `R4` have in common. -/
def sha1Round (mixed : UInt32 → UInt32 → UInt32 → UInt32)
    (expand : Vector UInt32 16 → Nat → UInt32) (constant : UInt32)
    (v w x y z : Sha1Var) (i : Nat) (work : Sha1Work) : Sha1Work :=
  let vars := work.vars
  let value := expand work.l i
  let vars := vars.set
    (vars.get z + (mixed (vars.get w) (vars.get x) (vars.get y) + value + constant +
      rol (vars.get v) 5)) z
  ⟨vars.set (rol (vars.get w) 30) w, work.l.set (wordIndex i) value⟩

/-- `R0`. -/
def R0 := sha1Round (fun w x y => (w &&& (x ^^^ y)) ^^^ y) blk0 0x5A827999

/-- `R1`. -/
def R1 := sha1Round (fun w x y => (w &&& (x ^^^ y)) ^^^ y) blk 0x5A827999

/-- `R2`. -/
def R2 := sha1Round (fun w x y => w ^^^ x ^^^ y) blk 0x6ED9EBA1

/-- `R3`. -/
def R3 := sha1Round (fun w x y => ((w ||| x) &&& y) ||| (w &&& x)) blk 0x8F1BBCDC

/-- `R4`. -/
def R4 := sha1Round (fun w x y => w ^^^ x ^^^ y) blk 0xCA62C1D6

open Sha1Var in
def sha1Rounds : List (Sha1Work → Sha1Work) := [
  R0 a b c d e 0, R0 e a b c d 1, R0 d e a b c 2, R0 c d e a b 3, R0 b c d e a 4,
  R0 a b c d e 5, R0 e a b c d 6, R0 d e a b c 7, R0 c d e a b 8, R0 b c d e a 9,
  R0 a b c d e 10, R0 e a b c d 11, R0 d e a b c 12, R0 c d e a b 13, R0 b c d e a 14,
  R0 a b c d e 15, R1 e a b c d 16, R1 d e a b c 17, R1 c d e a b 18, R1 b c d e a 19,
  R2 a b c d e 20, R2 e a b c d 21, R2 d e a b c 22, R2 c d e a b 23, R2 b c d e a 24,
  R2 a b c d e 25, R2 e a b c d 26, R2 d e a b c 27, R2 c d e a b 28, R2 b c d e a 29,
  R2 a b c d e 30, R2 e a b c d 31, R2 d e a b c 32, R2 c d e a b 33, R2 b c d e a 34,
  R2 a b c d e 35, R2 e a b c d 36, R2 d e a b c 37, R2 c d e a b 38, R2 b c d e a 39,
  R3 a b c d e 40, R3 e a b c d 41, R3 d e a b c 42, R3 c d e a b 43, R3 b c d e a 44,
  R3 a b c d e 45, R3 e a b c d 46, R3 d e a b c 47, R3 c d e a b 48, R3 b c d e a 49,
  R3 a b c d e 50, R3 e a b c d 51, R3 d e a b c 52, R3 c d e a b 53, R3 b c d e a 54,
  R3 a b c d e 55, R3 e a b c d 56, R3 d e a b c 57, R3 c d e a b 58, R3 b c d e a 59,
  R4 a b c d e 60, R4 e a b c d 61, R4 d e a b c 62, R4 c d e a b 63, R4 b c d e a 64,
  R4 a b c d e 65, R4 e a b c d 66, R4 d e a b c 67, R4 c d e a b 68, R4 b c d e a 69,
  R4 a b c d e 70, R4 e a b c d 71, R4 d e a b c 72, R4 c d e a b 73, R4 b c d e a 74,
  R4 a b c d e 75, R4 e a b c d 76, R4 d e a b c 77, R4 c d e a b 78, R4 b c d e a 79]

/-- `SHA1Transform`: the state it leaves. -/
def sha1Transform (state : Sha1Vars) (buffer : List UInt8) : Sha1Vars :=
  let work := sha1Rounds.foldl (fun work round => round work) ⟨state, blockWords buffer⟩
  state.add work.vars

/-! ## The standard -/

def bigEndian (b0 b1 b2 b3 : UInt8) : UInt32 := littleEndian b3 b2 b1 b0

def messageWord (block : List UInt8) (t : Nat) : UInt32 :=
  bigEndian (block.getD (4 * t) 0) (block.getD (4 * t + 1) 0) (block.getD (4 * t + 2) 0)
    (block.getD (4 * t + 3) 0)

def schedule (block : List UInt8) (t : Nat) : UInt32 :=
  if t < 16 then messageWord block t
  else rol (schedule block (t - 3) ^^^ schedule block (t - 8) ^^^ schedule block (t - 14) ^^^
    schedule block (t - 16)) 1

/-- The function of a round: choice, parity, majority, parity. -/
def roundFunction (t : Nat) (b c d : UInt32) : UInt32 :=
  if t < 20 then (b &&& c) ^^^ (~~~b &&& d)
  else if t < 40 then b ^^^ c ^^^ d
  else if t < 60 then (b &&& c) ^^^ (b &&& d) ^^^ (c &&& d)
  else b ^^^ c ^^^ d

/-- The constant of a round. -/
def roundConstant (t : Nat) : UInt32 :=
  if t < 20 then 0x5A827999
  else if t < 40 then 0x6ED9EBA1
  else if t < 60 then 0x8F1BBCDC
  else 0xCA62C1D6

def roundStep (block : List UInt8) (vars : Sha1Vars) (t : Nat) : Sha1Vars where
  a := rol vars.a 5 + roundFunction t vars.b vars.c vars.d + vars.e + roundConstant t +
    schedule block t
  b := vars.a
  c := rol vars.b 30
  d := vars.c
  e := vars.d

/-- The compression of a block into the hash value. -/
def sha1Compress (state : Sha1Vars) (block : List UInt8) : Sha1Vars :=
  state.add ((List.range 80).foldl (roundStep block) state)

/-! ## The rounds take the variables in turn -/

namespace Sha1Vars

theorem get_set (vars : Sha1Vars) (value : UInt32) (v w : Sha1Var) :
    (vars.set value v).get w = if w = v then value else vars.get w := by
  cases v <;> cases w <;> rfl

end Sha1Vars

/-- The variable that comes next in the place of one. -/
def Sha1Var.turn : Sha1Var → Sha1Var
  | .a => .e
  | .b => .a
  | .c => .b
  | .d => .c
  | .e => .d

theorem Sha1Var.turn_injective : Function.Injective turn := by
  intro v w same
  cases v <;> cases w <;> first | rfl | cases same

def roundMix (t : Nat) (w x y : UInt32) : UInt32 :=
  if t < 20 then (w &&& (x ^^^ y)) ^^^ y
  else if t < 40 then w ^^^ x ^^^ y
  else if t < 60 then ((w ||| x) &&& y) ||| (w &&& x)
  else w ^^^ x ^^^ y

def expandAt (t : Nat) : Vector UInt32 16 → Nat → UInt32 := if t < 16 then blk0 else blk

def roundAt (t : Nat) : Sha1Work → Sha1Work :=
  sha1Round (roundMix t) (expandAt t) (roundConstant t) (Sha1Var.turn^[t] .a)
    (Sha1Var.turn^[t] .b) (Sha1Var.turn^[t] .c) (Sha1Var.turn^[t] .d) (Sha1Var.turn^[t] .e) t

theorem sha1Rounds_eq : sha1Rounds = (List.range 80).map roundAt := rfl

/-- The values in the order in which a round takes the variables. -/
def Sha1Vars.turned (vars : Sha1Vars) (t : Nat) : Sha1Vars where
  a := vars.get (Sha1Var.turn^[t] .a)
  b := vars.get (Sha1Var.turn^[t] .b)
  c := vars.get (Sha1Var.turn^[t] .c)
  d := vars.get (Sha1Var.turn^[t] .d)
  e := vars.get (Sha1Var.turn^[t] .e)

theorem choice_eq (b c d : UInt32) : (b &&& (c ^^^ d)) ^^^ d = (b &&& c) ^^^ (~~~b &&& d) := by
  apply UInt32.toBitVec_inj.mp
  apply BitVec.eq_of_getLsbD_eq
  intro i inRange
  simp only [UInt32.toBitVec_xor, UInt32.toBitVec_and, UInt32.toBitVec_not, BitVec.getLsbD_xor,
    BitVec.getLsbD_and, BitVec.getLsbD_not, inRange, decide_true, Bool.true_and]
  cases b.toBitVec.getLsbD i <;> simp

theorem majority_eq (b c d : UInt32) :
    ((b ||| c) &&& d) ||| (b &&& c) = (b &&& c) ^^^ (b &&& d) ^^^ (c &&& d) := by
  apply UInt32.toBitVec_inj.mp
  apply BitVec.eq_of_getLsbD_eq
  intro i inRange
  simp only [UInt32.toBitVec_xor, UInt32.toBitVec_and, UInt32.toBitVec_or, BitVec.getLsbD_xor,
    BitVec.getLsbD_and, BitVec.getLsbD_or]
  cases b.toBitVec.getLsbD i <;> cases c.toBitVec.getLsbD i <;> simp

theorem roundMix_eq (t : Nat) (b c d : UInt32) : roundMix t b c d = roundFunction t b c d := by
  unfold roundMix roundFunction
  rw [choice_eq, majority_eq]

/-- A round does to the turned variables what the standard's round does. -/
theorem turned_roundAt (block : List UInt8) (t : Nat) (work : Sha1Work)
    (expanded : expandAt t work.l t = schedule block t) :
    (roundAt t work).vars.turned (t + 1) = roundStep block (work.vars.turned t) t := by
  have apart (v w : Sha1Var) (different : v ≠ w) :
      Sha1Var.turn^[t] v ≠ Sha1Var.turn^[t] w := fun same =>
    different (Sha1Var.turn_injective.iterate t same)
  have next (v : Sha1Var) : Sha1Var.turn^[t + 1] v = Sha1Var.turn^[t] v.turn :=
    Function.iterate_succ_apply _ _ _
  unfold Sha1Vars.turned roundStep roundAt sha1Round
  simp only [next, Sha1Var.turn, Sha1Vars.get_set, expanded, roundMix_eq, Sha1Vars.mk.injEq]
  refine ⟨?_, ?_, ?_, ?_, ?_⟩
  · rw [if_neg (apart _ _ (by decide)), if_pos trivial]
    ac_rfl
  · rw [if_neg (apart _ _ (by decide)), if_neg (apart _ _ (by decide))]
  · rw [if_pos trivial, if_neg (apart _ _ (by decide))]
  · rw [if_neg (apart _ _ (by decide)), if_neg (apart _ _ (by decide))]
  · rw [if_neg (apart _ _ (by decide)), if_neg (apart _ _ (by decide))]

/-! ## The schedule in sixteen words -/

theorem swap_eq (b0 b1 b2 b3 : UInt8) :
    (rol (littleEndian b0 b1 b2 b3) 24 &&& 0xFF00FF00) |||
      (rol (littleEndian b0 b1 b2 b3) 8 &&& 0x00FF00FF) = bigEndian b0 b1 b2 b3 := by
  apply UInt32.toBitVec_inj.mp
  apply BitVec.eq_of_getLsbD_eq
  intro i inRange
  simp [rol, bigEndian, littleEndian, inRange]
  interval_cases i <;> simp

/-- The words before round `t`: the last sixteen of the schedule, as far as it goes, and the
words of the block that were not expanded. -/
structure Expanded (block : List UInt8) (t : Nat) (l : Vector UInt32 16) : Prop where
  recent : ∀ s < t, t ≤ s + 16 → l[wordIndex s] = schedule block s
  raw : ∀ s < 16, t ≤ s → l[wordIndex s] = (blockWords block)[wordIndex s]

theorem Expanded.word {block : List UInt8} {s t i : Nat} {l : Vector UInt32 16}
    (expanded : Expanded block t l) (before : s < t) (near : t ≤ s + 16)
    (place : i % 16 = s % 16) : l[wordIndex i] = schedule block s := by
  have same : wordIndex i = wordIndex s := Fin.ext place
  simpa only [same] using expanded.recent s before near

theorem blk0_raw {block : List UInt8} {t : Nat} {l : Vector UInt32 16} (first : t < 16)
    (raw : l[wordIndex t] = (blockWords block)[wordIndex t]) :
    blk0 l t = messageWord block t := by
  have index : (wordIndex t : Nat) = t := Nat.mod_eq_of_lt first
  rw [blk0, raw]
  simp only [blockWords, Fin.getElem_fin, Vector.getElem_ofFn, index]
  exact swap_eq _ _ _ _

/-- What a round adds is the schedule's word. -/
theorem expandAt_eq {block : List UInt8} {t : Nat} {l : Vector UInt32 16}
    (expanded : Expanded block t l) : expandAt t l t = schedule block t := by
  by_cases first : t < 16
  · rw [expandAt, if_pos first, schedule, if_pos first]
    exact blk0_raw first (expanded.raw t first (Nat.le_refl t))
  · have third := expanded.word (show t - 3 < t by omega) (by omega)
      (show (t + 13) % 16 = (t - 3) % 16 by omega)
    have eighth := expanded.word (show t - 8 < t by omega) (by omega)
      (show (t + 8) % 16 = (t - 8) % 16 by omega)
    have fourteenth := expanded.word (show t - 14 < t by omega) (by omega)
      (show (t + 2) % 16 = (t - 14) % 16 by omega)
    have sixteenth := expanded.word (show t - 16 < t by omega) (by omega)
      (show t % 16 = (t - 16) % 16 by omega)
    rw [expandAt, if_neg first, schedule, if_neg first, blk, third, eighth, fourteenth,
      sixteenth]

theorem expanded_roundAt {block : List UInt8} {t : Nat} {work : Sha1Work}
    (expanded : Expanded block t work.l) : Expanded block (t + 1) (roundAt t work).l := by
  have value := expandAt_eq expanded
  have other {s : Nat} (different : t % 16 ≠ s % 16) :
      (roundAt t work).l[wordIndex s] = work.l[wordIndex s] :=
    Vector.getElem_set_ne (wordIndex t).isLt (wordIndex s).isLt different
  constructor
  · intro s before near
    by_cases last : s = t
    · subst last
      rw [← value]
      exact Vector.getElem_set_self _
    · rw [other (by omega)]
      exact expanded.recent s (by omega) (by omega)
  · intro s first after
    rw [other (by omega)]
    exact expanded.raw s first (by omega)

theorem expanded_blockWords (block : List UInt8) : Expanded block 0 (blockWords block) where
  recent s before _ := absurd before (Nat.not_lt_zero s)
  raw _ _ _ := rfl

/-! ## All rounds -/

def roundsFrom (state : Sha1Vars) (block : List UInt8) (n : Nat) : Sha1Work :=
  ((List.range n).map roundAt).foldl (fun work round => round work) ⟨state, blockWords block⟩

theorem roundsFrom_succ (state : Sha1Vars) (block : List UInt8) (n : Nat) :
    roundsFrom state block (n + 1) = roundAt n (roundsFrom state block n) := by
  unfold roundsFrom
  rw [List.range_succ, List.map_append, List.foldl_append]
  rfl

theorem expanded_roundsFrom (state : Sha1Vars) (block : List UInt8) (n : Nat) :
    Expanded block n (roundsFrom state block n).l := by
  induction n with
  | zero => exact expanded_blockWords block
  | succ n step =>
      rw [roundsFrom_succ]
      exact expanded_roundAt step

theorem turned_roundsFrom (state : Sha1Vars) (block : List UInt8) (n : Nat) :
    (roundsFrom state block n).vars.turned n =
      (List.range n).foldl (roundStep block) state := by
  induction n with
  | zero => rfl
  | succ n step =>
      have value := expandAt_eq (expanded_roundsFrom state block n)
      rw [roundsFrom_succ, turned_roundAt block n _ value, step, List.range_succ,
        List.foldl_append]
      rfl

theorem turned_eighty (vars : Sha1Vars) : vars.turned 80 = vars := rfl

theorem sha1Transform_eq (state : Sha1Vars) (buffer : List UInt8) :
    sha1Transform state buffer = sha1Compress state buffer := by
  have rounds := turned_roundsFrom state buffer 80
  rw [turned_eighty] at rounds
  rw [sha1Compress, ← rounds, sha1Transform, sha1Rounds_eq]
  rfl

end NtShm
