import NtShm.CStrings

/-!
# Frames of the net protocol

`ntptcl_send` lays two structures, the data and a tail string one after the
other; `ntptcl_handle` reads the same offsets back from what was received.
Sizes and offsets are those of the usual x86-64 layout.  The digest that
`SHA1` computes is a parameter.
-/

namespace NtShm

/-- `nt_type`. -/
inductive NtType
  | file
  | string
  | cmd
  | status
  | sync
  deriving DecidableEq

def NtType.code : NtType → Nat
  | .file => 0
  | .string => 1
  | .cmd => 2
  | .status => 3
  | .sync => 4

/-! ## The layout of the structures -/

/-- `offsetof(struct ntptcli, len)`, after the padding of `head[13]`. -/
def ntptcliLen : Nat := 16

/-- `offsetof(struct ntptcli, ckcode)`. -/
def ntptcliCkcode : Nat := 20

/-- `sizeof(struct ntptcli)`, with the padding after `ckcode[41]`. -/
def ntptcliSize : Nat := 64

/-- `sizeof(struct ntptclii)`: only `type`, as `data` has no length. -/
def ntptcliiSize : Nat := 4

/-- `NTPTCLIHEAD`, the text `nt head data`. -/
def ntptcliHead : CString :=
  ⟨[110, 116, 32, 104, 101, 97, 100, 32, 100, 97, 116, 97], by decide⟩

/-- `NTPTCLITAIL`, the text `nt tail data`. -/
def ntptcliTail : CString :=
  ⟨[110, 116, 32, 116, 97, 105, 108, 32, 100, 97, 116, 97], by decide⟩

/-! ## The check code -/

abbrev Digest := Vector UInt8 20

/-- `SHA1(result, str, len)`.  The length becomes an `int`, which the loop
compares with an `unsigned int`. -/
def sha1 (digest : List UInt8 → Digest) (mem : Memory) (str len : Nat) : Digest :=
  digest (mem.bytes str (len % 2 ^ 32))

/-- `result[offset] & 0xff`, where the byte is a signed `char`. -/
def maskedChar (char : UInt8) : Nat :=
  (char.toBitVec.signExtend 32 &&& 0xff#32).toNat

/-- A hexadecimal digit of `sprintf`'s format `%x`. -/
def hexDigit (digit : Nat) : UInt8 :=
  UInt8.ofNat (if digit < 10 then 48 + digit else 87 + digit)

/-- `sprintf` with the format `%02x`, of a number below 256. -/
def sprintf02x (value : Nat) : List UInt8 :=
  [hexDigit (value / 16), hexDigit (value % 16)]

theorem maskedChar_lt (char : UInt8) : maskedChar char < 256 := by
  have masked : maskedChar char ≤ (0xff#32).toNat := by
    unfold maskedChar
    rw [BitVec.toNat_and]
    exact Nat.and_le_right
  exact Nat.lt_succ_of_le masked

theorem hexDigit_ne_zero {digit : Nat} (small : digit < 16) :
    hexDigit digit ≠ 0 := by
  revert digit
  decide

/-- `hexresult`: the digits of the twenty bytes, one after the other. -/
def hexresult (result : Digest) : CString where
  bytes := result.toList.flatMap fun char => sprintf02x (maskedChar char)
  noNul := by
    intro nul
    obtain ⟨char, -, digit⟩ := List.mem_flatMap.mp nul
    have bound := maskedChar_lt char
    simp only [sprintf02x, List.mem_cons, List.not_mem_nil, or_false] at digit
    cases digit with
    | inl high => exact hexDigit_ne_zero (by omega) high.symm
    | inr low => exact hexDigit_ne_zero (by omega) low.symm

@[simp] theorem hexresult_length (result : Digest) :
    (hexresult result).length = 40 := by
  simp [hexresult, CString.length, sprintf02x, List.length_flatMap,
    List.map_const']

/-! ## Sending -/

/-- The bytes of `struct ntptcli ntptclid` when they are copied. -/
def ntptclid (result : Digest) (len : Nat) : Memory :=
  let zeroed : Memory := fun _ => 0
  let headed := snprintfString zeroed 0 16 ntptcliHead
  let checked := snprintfString headed ntptcliCkcode 41 (hexresult result)
  checked.store ntptcliLen 4 (len % 2 ^ 32)

/-- The bytes of `struct ntptclii ntptcliid` when they are copied. -/
def ntptcliid (ty : NtType) : Memory :=
  let zeroed : Memory := fun _ => 0
  zeroed.store 0 4 ty.code

/-- A frame in memory: `slen` bytes from `sdata`, which is taken as address 0. -/
structure SentFrame where
  slen : Nat
  sdata : Memory

/-- One case of `ntptcl_send`, where `heap` is what `malloc` returned. -/
def assembleFrame (digest : List UInt8 → Digest) (heap : Memory)
    (data : List UInt8) (ty : NtType) : SentFrame :=
  let source : Memory := fun offset => data.getD offset 0
  let len := data.length
  let tlen := ntptcliTail.length
  let slen := ntptcliSize + ntptcliiSize + len + tlen + 1
  let sdata := heap.fill 0 slen fun _ => 0
  let sdata := sdata.fill 0 ntptcliSize (ntptclid (sha1 digest source 0 len) len)
  let sdata := sdata.fill ntptcliSize ntptcliiSize (ntptcliid ty)
  let sdata := sdata.fill (ntptcliSize + ntptcliiSize) len source
  { slen := slen
    sdata := sdata.fill (ntptcliSize + ntptcliiSize + len) tlen ntptcliTail.byteAt }

/-- `ntptcl_send`: the frame it assembles, if the type has one. -/
def ntptclSend (digest : List UInt8 → Digest) (heap : Memory)
    (data : List UInt8) : NtType → Option SentFrame
  | .string => some (assembleFrame digest heap data .string)
  | .cmd => some (assembleFrame digest heap data .cmd)
  | .file => none
  | .sync => none
  | .status => some (assembleFrame digest heap data .status)

/-! ## Handling -/

inductive Access
  /-- All of `count` bytes. -/
  | bytes (start count : Nat)
  /-- A comparison by `strncmp` with other bytes. -/
  | compared (start count : Nat) (other : Nat → UInt8)
  /-- A string, up to its NUL. -/
  | string (start : Nat)

def Access.Reads (mem : Memory) (offset : Nat) : Access → Prop
  | .bytes start count => start ≤ offset ∧ offset < start + count
  | .compared start count other =>
      start ≤ offset ∧ offset < start + count ∧
        ∀ earlier, earlier < offset - start →
          mem (start + earlier) = other earlier ∧ other earlier ≠ 0
  | .string start =>
      start ≤ offset ∧
        ∀ earlier, earlier < offset - start → mem (start + earlier) ≠ 0

/-- The calls of `nt_log`; strings are given by their address. -/
inductive LogLine
  | sourceError
  | sourceLen (len : Int)
  | frame (header : Nat) (len type : Int) (data tail : Nat)

/-- `LOG_LEVEL_WARNING` and `LOG_LEVEL_TRACE`. -/
def LogLine.level : LogLine → Int
  | .sourceError => 3
  | .sourceLen _ => 3
  | .frame .. => 5

/-- What formatting the line reads from the received bytes. -/
def LogLine.strings : LogLine → List Access
  | .sourceError => []
  | .sourceLen _ => []
  | .frame header _ _ data tail => [.string header, .string data, .string tail]

/-- `NT_CHECK_LOG_LEVEL`. -/
def LogLine.Printed (ntLogLevel : Int) (line : LogLine) : Prop :=
  ¬(line.level ≠ 127 ∧ (ntLogLevel < line.level ∨ line.level = 0))

instance (ntLogLevel : Int) (line : LogLine) :
    Decidable (line.Printed ntLogLevel) :=
  inferInstanceAs (Decidable ¬_)

/-- What `ntptcl_handle` finds in a frame: whether the check code differs, the
fields, the offsets of the data and of the tail, the lines that are logged, and
every access it makes. -/
structure Handled where
  ckcodeDiffers : Bool
  len : Nat
  type : Nat
  data : Nat
  tail : Nat
  logged : List LogLine
  accesses : List Access

/-- `ntptcl_handle`, where the received bytes start at address 0 and whatever
follows them in memory is there as well.  `rlen` is not used. -/
def ntptclHandle (digest : List UInt8 → Digest) (ntLogLevel : Int)
    (mem : Memory) (_rlen : Nat) : Handled :=
  let data := ntptcliSize + ntptcliiSize
  let len := mem.load ntptcliLen 4
  let hexresult := hexresult (sha1 digest mem data len)
  let differs := strncmp hexresult.byteAt
    (fun offset => mem (ntptcliCkcode + offset)) 41 ≠ 0
  let warnings := if differs then [.sourceError, .sourceLen (asInt len)] else []
  let tail := ntptcliiSize + ntptcliSize + len
  let type := mem.load ntptcliSize ntptcliiSize
  let lines := warnings ++ [.frame 0 (asInt len) (asInt type) data tail]
  let logged := lines.filter fun line => line.Printed ntLogLevel
  { ckcodeDiffers := differs
    len := len
    type := type
    data := data
    tail := tail
    logged := logged
    accesses :=
      [.bytes ntptcliLen 4, .bytes data (len % 2 ^ 32),
        .compared ntptcliCkcode 41 hexresult.byteAt,
        .bytes ntptcliSize ntptcliiSize] ++ logged.flatMap LogLine.strings }

/-- Every byte that was read lies before an offset. -/
def Handled.ReadsBelow (handled : Handled) (mem : Memory) (bound : Nat) : Prop :=
  ∀ access ∈ handled.accesses, ∀ offset, access.Reads mem offset → offset < bound

/-- A string is not read past a NUL. -/
theorem Access.string_reads_le {mem : Memory} {start stop offset : Nat}
    (nul : mem stop = 0) (before : start ≤ stop)
    (reads : (Access.string start).Reads mem offset) : offset ≤ stop := by
  by_contra past
  have notNul := reads.2 (stop - start) (by omega)
  rw [Nat.add_sub_cancel' before] at notNul
  exact notNul nul

/-- A frame whose tail ends with a NUL before `bound` is read before `bound`. -/
theorem ntptclHandle_readsBelow (digest : List UInt8 → Digest)
    (ntLogLevel : Int) {mem : Memory} {bound : Nat} (rlen : Nat)
    (announced : 68 + mem.load 16 4 ≤ bound)
    (ended : 5 ≤ ntLogLevel →
      ∃ stop, 68 + mem.load 16 4 ≤ stop ∧ stop < bound ∧ mem stop = 0) :
    (ntptclHandle digest ntLogLevel mem rlen).ReadsBelow mem bound := by
  intro access isAccess offset reads
  simp only [ntptclHandle, ntptcliLen, ntptcliSize, ntptcliiSize,
    ntptcliCkcode] at isAccess
  rw [List.mem_append] at isAccess
  cases isAccess with
  | inl fixed =>
      have modLe := Nat.mod_le (mem.load 16 4) (2 ^ 32)
      simp only [List.mem_cons, List.not_mem_nil, or_false] at fixed
      rcases fixed with rfl | rfl | rfl | rfl
      all_goals
        simp only [Access.Reads] at reads
        omega
  | inr printed =>
      obtain ⟨line, isLogged, isString⟩ := List.mem_flatMap.mp printed
      rw [List.mem_filter, decide_eq_true_eq] at isLogged
      cases line with
      | sourceError => simp [LogLine.strings] at isString
      | sourceLen len => simp [LogLine.strings] at isString
      | frame header len type data tail =>
          have traced : 5 ≤ ntLogLevel := by
            have shown := isLogged.2
            simp only [LogLine.Printed, LogLine.level] at shown
            omega
          have fields : header = 0 ∧ data = 68 ∧ tail = 68 + mem.load 16 4 := by
            have isLine := isLogged.1
            split at isLine <;> simp_all
          obtain ⟨stop, afterData, inside, nul⟩ := ended traced
          simp only [LogLine.strings, List.mem_cons, List.not_mem_nil,
            or_false] at isString
          have before : offset ≤ stop := by
            rcases isString with rfl | rfl | rfl
            all_goals exact Access.string_reads_le nul (by omega) reads
          omega

end NtShm
