import NtShm.ByteMemory
import Mathlib.Logic.Function.Basic

/-!
# NUL-terminated strings

A string argument is the list of its bytes before the NUL; a string in memory
is such a list followed by a zero byte.
-/

namespace NtShm

/-- The bytes of a C string, without its terminating NUL. -/
structure CString where
  bytes : List UInt8
  noNul : 0 ∉ bytes

namespace CString

/-- `strlen`. -/
def length (text : CString) : Nat := text.bytes.length

def byteAt (text : CString) (offset : Nat) : UInt8 := text.bytes.getD offset 0

def toText (text : CString) : String :=
  String.ofList (text.bytes.map fun byte => Char.ofNat byte.toNat)

def StandsAt (text : CString) (mem : Memory) (address : Nat) : Prop :=
  (∀ index (inRange : index < text.bytes.length),
    mem (address + index) = text.bytes[index]) ∧
    mem (address + text.length) = 0

theorem byteAt_of_lt {text : CString} {offset : Nat}
    (inRange : offset < text.bytes.length) :
    text.byteAt offset = text.bytes[offset] := by
  simp [byteAt, inRange]

@[simp] theorem byteAt_length (text : CString) : text.byteAt text.length = 0 := by
  simp [byteAt, length]

theorem standsAt_of_byteAt {text : CString} {mem : Memory} {address : Nat}
    (agree : ∀ offset, offset < text.length + 1 →
      mem (address + offset) = text.byteAt offset) :
    text.StandsAt mem address := by
  constructor
  · intro index inRange
    rw [agree index (by unfold length; omega), byteAt_of_lt inRange]
  · rw [agree _ (by omega), byteAt_length]

theorem StandsAt.of_agree {text : CString} {mem mem' : Memory} {address : Nat}
    (stands : text.StandsAt mem address)
    (agree : ∀ position, address ≤ position →
      position < address + text.length + 1 → mem' position = mem position) :
    text.StandsAt mem' address := by
  refine ⟨fun index inRange => ?_, ?_⟩
  · rw [agree _ (by omega) (by unfold length; omega)]
    exact stands.1 index inRange
  · rw [agree _ (by omega) (by omega)]
    exact stands.2

end CString

/-- The loop of `nt_strlcpy`: `siz` is what is left of the buffer, and `count`
what has been copied. -/
def strlcpyLoop (mem : Memory) (dst : Nat) :
    List UInt8 → Nat → Nat → Memory × Nat
  | [], _, count => (Function.update mem dst 0, count)
  | byte :: bytes, siz, count =>
      if siz - 1 ≠ 0 then
        strlcpyLoop (Function.update mem dst byte) (dst + 1) bytes (siz - 1)
          (count + 1)
      else (Function.update mem dst 0, count)

/-- `nt_strlcpy`: the memory afterwards, and the number of bytes copied. -/
def ntStrlcpy (mem : Memory) (dst : Nat) (src : CString) (siz : Nat) :
    Memory × Nat :=
  if siz ≠ 0 then strlcpyLoop mem dst src.bytes siz 0 else (mem, 0)

theorem strlcpyLoop_spec (mem : Memory) (dst siz count : Nat)
    {bytes : List UInt8} (fits : bytes.length < siz) :
    (∀ index (inRange : index < bytes.length),
      (strlcpyLoop mem dst bytes siz count).1 (dst + index) = bytes[index]) ∧
    (strlcpyLoop mem dst bytes siz count).1 (dst + bytes.length) = 0 ∧
    (∀ position, position < dst ∨ dst + bytes.length + 1 ≤ position →
      (strlcpyLoop mem dst bytes siz count).1 position = mem position) ∧
    (strlcpyLoop mem dst bytes siz count).2 = count + bytes.length := by
  induction bytes generalizing mem dst siz count with
  | nil =>
      refine ⟨by simp, by simp [strlcpyLoop], fun position outside => ?_, rfl⟩
      exact Function.update_of_ne (by simp at outside; omega) _ _
  | cons byte bytes ih =>
      rw [List.length_cons] at fits
      obtain ⟨copied, ended, kept, counted⟩ :=
        ih (Function.update mem dst byte) (dst + 1) (siz - 1) (count + 1)
          (by omega)
      rw [strlcpyLoop, if_pos (by omega)]
      refine ⟨fun index inRange => ?_, ?_, fun position outside => ?_, ?_⟩
      · cases index with
        | zero =>
            rw [kept _ (Or.inl (by omega))]
            exact Function.update_self _ _ _
        | succ index =>
            rw [List.length_cons] at inRange
            have shift : dst + (index + 1) = dst + 1 + index := by omega
            rw [shift, copied index (by omega), List.getElem_cons_succ]
      · have shift : dst + (byte :: bytes).length = dst + 1 + bytes.length := by
          rw [List.length_cons]
          omega
        rw [shift, ended]
      · rw [List.length_cons] at outside
        rw [kept position (by omega)]
        exact Function.update_of_ne (by omega) _ _
      · rw [counted, List.length_cons]
        omega

/-- `strncmp`, on two strings given by the byte at each offset. -/
def strncmp (first second : Nat → UInt8) : Nat → Int
  | 0 => 0
  | count + 1 =>
      if first 0 ≠ second 0 then (first 0).toNat - (second 0).toNat
      else if first 0 = 0 then 0
      else strncmp (fun offset => first (offset + 1))
        (fun offset => second (offset + 1)) count

theorem strncmp_eq_zero {first second : Nat → UInt8} {count : Nat}
    (agree : ∀ offset, offset < count → first offset = second offset) :
    strncmp first second count = 0 := by
  induction count generalizing first second with
  | zero => rfl
  | succ count ih =>
      have same : first 0 = second 0 := agree 0 (by omega)
      have later : strncmp (fun offset => first (offset + 1))
          (fun offset => second (offset + 1)) count = 0 :=
        ih fun offset inRange => agree (offset + 1) (by omega)
      rw [strncmp, if_neg (not_not.mpr same), later, ite_self]

/-- `snprintf` of one string with the format `%s`: what fits in `size` bytes,
and a NUL. -/
def snprintfString (mem : Memory) (dst size : Nat) (text : CString) : Memory :=
  if size = 0 then mem
  else
    let kept := min text.length (size - 1)
    mem.fill dst (kept + 1) fun offset =>
      if offset < kept then text.byteAt offset else 0

theorem snprintfString_eq_fill (mem : Memory) (dst size : Nat) {text : CString}
    (fits : text.length < size) :
    snprintfString mem dst size text =
      mem.fill dst (text.length + 1) text.byteAt := by
  have whole : min text.length (size - 1) = text.length := by omega
  have source : (fun offset => if offset < text.length then text.byteAt offset
      else 0) = text.byteAt := by
    funext offset
    split
    · rfl
    · next past =>
        have pastBytes : text.bytes.length ≤ offset := not_lt.mp past
        simp [CString.byteAt, pastBytes]
  rw [snprintfString, if_neg (by omega), whole]
  exact congrArg (mem.fill dst (text.length + 1)) source

theorem ntStrlcpy_spec (mem : Memory) (dst siz : Nat) {src : CString}
    (fits : src.length < siz) :
    src.StandsAt (ntStrlcpy mem dst src siz).1 dst ∧
      (∀ position, position < dst ∨ dst + src.length + 1 ≤ position →
        (ntStrlcpy mem dst src siz).1 position = mem position) ∧
      (ntStrlcpy mem dst src siz).2 = src.length := by
  obtain ⟨copied, ended, kept, counted⟩ :=
    strlcpyLoop_spec mem dst siz 0 fits
  rw [ntStrlcpy, if_pos (by omega)]
  exact ⟨⟨copied, ended⟩, kept, by rw [counted, Nat.zero_add]; rfl⟩

theorem ntStrlcpy_twice (mem : Memory) {dst siz dst' siz' : Nat} {first second : CString}
    (fits : first.length < siz) (fits' : second.length < siz')
    (apart : dst + first.length + 1 ≤ dst') :
    first.StandsAt (ntStrlcpy (ntStrlcpy mem dst first siz).1 dst' second siz').1 dst ∧
      second.StandsAt (ntStrlcpy (ntStrlcpy mem dst first siz).1 dst' second siz').1 dst' ∧
      ∀ position, position < dst →
        (ntStrlcpy (ntStrlcpy mem dst first siz).1 dst' second siz').1 position =
          mem position := by
  obtain ⟨copied, kept, -⟩ := ntStrlcpy_spec mem dst siz fits
  obtain ⟨copied', kept', -⟩ :=
    ntStrlcpy_spec (ntStrlcpy mem dst first siz).1 dst' siz' fits'
  refine ⟨copied.of_agree fun position _ below => ?_, copied', fun position below => ?_⟩
  · exact kept' position (Or.inl (by omega))
  · rw [kept' position (Or.inl (by omega))]
    exact kept position (Or.inl below)

namespace CString

def append (first second : CString) : CString :=
  ⟨first.bytes ++ second.bytes, fun inBoth =>
    (List.mem_append.mp inBoth).elim first.noNul second.noNul⟩

def take (text : CString) (count : Nat) : CString :=
  ⟨text.bytes.take count, fun inTake => text.noNul (List.mem_of_mem_take inTake)⟩

theorem append_length (first second : CString) :
    (first.append second).length = first.length + second.length :=
  List.length_append

theorem take_length (text : CString) (count : Nat) :
    (text.take count).length = min count text.length :=
  List.length_take

theorem take_of_length_le {text : CString} {count : Nat} (short : text.length ≤ count) :
    text.take count = text := by
  obtain ⟨bytes, noNul⟩ := text
  simp only [take, List.take_of_length_le short]

/-- A string in memory ends at its NUL, and nowhere before. -/
theorem StandsAt.byte_ne_zero {text : CString} {mem : Memory} {address index : Nat}
    (stands : text.StandsAt mem address) (inRange : index < text.length) :
    mem (address + index) ≠ 0 := by
  rw [stands.1 index inRange]
  intro isZero
  exact text.noNul (isZero ▸ List.getElem_mem inRange)

theorem StandsAt.unique {first second : CString} {mem : Memory} {address : Nat}
    (stands : first.StandsAt mem address) (stands' : second.StandsAt mem address) :
    first = second := by
  have sameLength : first.length = second.length := by
    rcases Nat.lt_trichotomy first.length second.length with shorter | same | longer
    · exact absurd stands.2 (stands'.byte_ne_zero shorter)
    · exact same
    · exact absurd stands'.2 (stands.byte_ne_zero longer)
  obtain ⟨bytes, noNul⟩ := first
  obtain ⟨bytes', noNul'⟩ := second
  have sameBytes : bytes = bytes' := by
    apply List.ext_getElem sameLength
    intro index inFirst inSecond
    rw [← stands.1 index inFirst, ← stands'.1 index inSecond]
  subst sameBytes
  rfl

theorem StandsAt.append {first second : CString} {mem : Memory} {address : Nat}
    (stands : ∀ index (inRange : index < first.bytes.length),
      mem (address + index) = first.bytes[index])
    (behind : second.StandsAt mem (address + first.length)) :
    (first.append second).StandsAt mem address := by
  refine ⟨fun index inRange => ?_, ?_⟩
  · have inRange' : index < first.bytes.length + second.bytes.length := by
      rwa [← List.length_append]
    by_cases inFirst : index < first.bytes.length
    · rw [stands index inFirst]
      exact (List.getElem_append_left inFirst).symm
    · have shift : address + index = address + first.length + (index - first.bytes.length) := by
        unfold length
        omega
      rw [shift, behind.1 _ (by omega)]
      exact (List.getElem_append_right (by omega)).symm
  · rw [append_length, ← Nat.add_assoc]
    exact behind.2

end CString

theorem strlcpyLoop_take (mem : Memory) (dst count : Nat) (bytes : List UInt8) (space : Nat) :
    (strlcpyLoop mem dst bytes (space + 1) count) =
      strlcpyLoop mem dst (bytes.take space) (space + 1) count := by
  induction bytes generalizing mem dst count space with
  | nil => rw [List.take_nil]
  | cons byte bytes ih =>
      cases space with
      | zero => rfl
      | succ space =>
          simp only [strlcpyLoop, List.take_succ_cons, Nat.add_sub_cancel]
          rw [if_pos (Nat.succ_ne_zero space), if_pos (Nat.succ_ne_zero space)]
          exact ih _ _ _ space

theorem ntStrlcpy_take (mem : Memory) (dst : Nat) (src : CString) {siz : Nat}
    (someSpace : 0 < siz) :
    (src.take (siz - 1)).StandsAt (ntStrlcpy mem dst src siz).1 dst ∧
      ∀ position, position < dst ∨ dst + (src.take (siz - 1)).length + 1 ≤ position →
        (ntStrlcpy mem dst src siz).1 position = mem position := by
  obtain ⟨space, rfl⟩ := Nat.exists_eq_succ_of_ne_zero (Nat.ne_of_gt someSpace)
  have fits : (src.take space).length < space + 1 := by
    rw [CString.take_length]
    omega
  obtain ⟨stands, kept, -⟩ := ntStrlcpy_spec mem dst (space + 1) fits
  have same : ntStrlcpy mem dst src (space + 1) =
      ntStrlcpy mem dst (src.take space) (space + 1) := by
    rw [ntStrlcpy, ntStrlcpy, if_pos (Nat.succ_ne_zero space), if_pos (Nat.succ_ne_zero space),
      strlcpyLoop_take]
    rfl
  rw [Nat.succ_eq_add_one, Nat.add_sub_cancel, same]
  exact ⟨stands, kept⟩

/-- The loop of `nt_strlcat`: the end of the string at `dst`, and the `size_t` that
`siz` is then.  No string has 2^64 bytes. -/
def strlcatLoop (mem : Memory) : Nat → Nat → Nat → Option (Nat × Nat)
  | 0, _, _ => none
  | fuel + 1, dst, siz =>
      if mem dst ≠ 0 then strlcatLoop mem fuel (dst + 1) ((siz + (2 ^ 64 - 1)) % 2 ^ 64)
      else some (dst, siz)

/-- `nt_strlcat`. -/
def ntStrlcat (mem : Memory) (dst : Nat) (src : CString) (siz : Nat) : Option Memory := do
  let (dst, siz) ← strlcatLoop mem (2 ^ 64) dst siz
  some (ntStrlcpy mem dst src siz).1

theorem strlcatLoop_eq {mem : Memory} {fuel dst siz length : Nat}
    (bytes : ∀ index, index < length → mem (dst + index) ≠ 0) (ended : mem (dst + length) = 0)
    (within : length ≤ siz) (isSize : siz < 2 ^ 64) (enough : length < fuel) :
    strlcatLoop mem fuel dst siz = some (dst + length, siz - length) := by
  induction length generalizing fuel dst siz with
  | zero =>
      obtain ⟨fuel, rfl⟩ := Nat.exists_eq_succ_of_ne_zero (Nat.ne_of_gt enough)
      rw [Nat.add_zero] at ended
      rw [strlcatLoop, if_neg (not_not.mpr ended)]
      rfl
  | succ length ih =>
      obtain ⟨fuel, rfl⟩ := Nat.exists_eq_succ_of_ne_zero (Nat.ne_zero_of_lt enough)
      have first : mem dst ≠ 0 := bytes 0 (Nat.succ_pos length)
      have decrement : (siz + (2 ^ 64 - 1)) % 2 ^ 64 = siz - 1 := by omega
      rw [strlcatLoop, if_pos first, decrement, ih ?_ ?_ (by omega) (by omega) (by omega)]
      · rw [Nat.sub_sub, Nat.add_assoc, Nat.add_comm 1 length]
      · intro index inRange
        rw [Nat.add_assoc, Nat.add_comm 1 index]
        exact bytes (index + 1) (by omega)
      · rw [Nat.add_assoc, Nat.add_comm 1 length]
        exact ended

theorem ntStrlcat_spec {mem : Memory} {dst siz : Nat} {text : CString}
    (stands : text.StandsAt mem dst) (fits : text.length < siz) (isSize : siz < 2 ^ 64)
    (src : CString) :
    ∃ mem', ntStrlcat mem dst src siz = some mem' ∧
      (text.append (src.take (siz - text.length - 1))).StandsAt mem' dst ∧
      ∀ position, position < dst ∨ dst + siz ≤ position → mem' position = mem position := by
  have found := strlcatLoop_eq (fun index inRange => stands.byte_ne_zero inRange) stands.2
    fits.le isSize (fits.trans isSize)
  obtain ⟨behind, kept⟩ := ntStrlcpy_take mem (dst + text.length) src
    (Nat.sub_pos_of_lt fits)
  have bound : (src.take (siz - text.length - 1)).length ≤ siz - text.length - 1 := by
    rw [CString.take_length]
    exact Nat.min_le_left _ _
  refine ⟨_, by rw [ntStrlcat, found]; rfl, CString.StandsAt.append ?_ behind, ?_⟩
  · intro index inRange
    have inText : index < text.length := inRange
    rw [kept _ (Or.inl (by omega))]
    exact stands.1 index inRange
  · intro position outside
    exact kept position (by omega)

end NtShm
