import NtShm.PtclFrames

/-!
# What was sent is read back

The frame that `ntptcl_send` assembles, given to `ntptcl_handle`.  The bytes of
the frame are found region by region; both sides compute the check code from
the same bytes.
-/

namespace NtShm

section Frame

variable (digest : List UInt8 → Digest) (heap : Memory) (data : List UInt8)
  (ty : NtType)

theorem ntptclid_len (result : Digest) {len : Nat} (short : len < 2 ^ 32) :
    (ntptclid result len).load 16 4 = len := by
  have kept : len % 2 ^ 32 = len := Nat.mod_eq_of_lt short
  simp only [ntptclid, ntptcliLen, kept]
  apply Memory.load_store_same
  omega

theorem ntptclid_ckcode (result : Digest) (len : Nat) {offset : Nat}
    (inRange : offset < 41) :
    ntptclid result len (20 + offset) = (hexresult result).byteAt offset := by
  have size : (hexresult result).length = 40 := hexresult_length result
  simp only [ntptclid, ntptcliLen, ntptcliCkcode]
  rw [Memory.store_of_outside (by omega),
    snprintfString_eq_fill _ _ _ (by omega)]
  exact Memory.fill_of_inside (by omega)

theorem assembleFrame_slen :
    (assembleFrame digest heap data ty).slen = 81 + data.length := by
  have tail : ntptcliTail.length = 12 := rfl
  simp only [assembleFrame, ntptcliSize, ntptcliiSize, tail]
  omega

theorem assembleFrame_ntptclid {offset : Nat} (inRange : offset < 64) :
    (assembleFrame digest heap data ty).sdata offset =
      ntptclid (sha1 digest (fun offset => data.getD offset 0) 0 data.length)
        data.length offset := by
  simp only [assembleFrame, ntptcliSize, ntptcliiSize]
  rw [Memory.fill_of_outside (by omega), Memory.fill_of_outside (by omega),
    Memory.fill_of_outside (by omega)]
  simp [Memory.fill, inRange]

theorem assembleFrame_ntptcliid {offset : Nat} (inRange : offset < 4) :
    (assembleFrame digest heap data ty).sdata (64 + offset) =
      ntptcliid ty offset := by
  simp only [assembleFrame, ntptcliSize, ntptcliiSize]
  rw [Memory.fill_of_outside (by omega), Memory.fill_of_outside (by omega),
    Memory.fill_of_inside inRange]

theorem assembleFrame_data {offset : Nat} (inRange : offset < data.length) :
    (assembleFrame digest heap data ty).sdata (68 + offset) = data[offset] := by
  simp only [assembleFrame, ntptcliSize, ntptcliiSize]
  rw [Memory.fill_of_outside (by omega), Memory.fill_of_inside inRange]
  simp [inRange]

theorem assembleFrame_tail {offset : Nat} (inRange : offset < 13) :
    (assembleFrame digest heap data ty).sdata (68 + data.length + offset) =
      ntptcliTail.byteAt offset := by
  have tail : ntptcliTail.length = 12 := rfl
  simp only [assembleFrame, ntptcliSize, ntptcliiSize]
  by_cases inText : offset < 12
  · exact Memory.fill_of_inside inText
  · have last : offset = 12 := by omega
    subst last
    rw [Memory.fill_of_outside (by omega), Memory.fill_of_outside (by omega),
      Memory.fill_of_outside (by omega), Memory.fill_of_outside (by omega)]
    have shift : 68 + data.length + 12 = 0 + (68 + data.length + 12) := by omega
    rw [shift, Memory.fill_of_inside (by omega)]
    rfl

theorem assembleFrame_len (short : data.length < 2 ^ 32) :
    (assembleFrame digest heap data ty).sdata.load 16 4 = data.length := by
  rw [Memory.load_congr fun position low high =>
    assembleFrame_ntptclid digest heap data ty (by omega)]
  exact ntptclid_len _ short

theorem assembleFrame_type :
    (assembleFrame digest heap data ty).sdata.load 64 4 = ty.code := by
  have small : ty.code < 256 ^ 4 := by cases ty <;> decide
  have moved : (assembleFrame digest heap data ty).sdata.load 64 4 =
      (ntptcliid ty).load 0 4 := by
    apply Memory.load_moved
    intro offset inRange
    rw [assembleFrame_ntptcliid _ _ _ _ inRange, Nat.zero_add]
  rw [moved]
  exact Memory.load_store_same small

theorem assembleFrame_sha1 (short : data.length < 2 ^ 32) :
    sha1 digest (assembleFrame digest heap data ty).sdata 68 data.length =
      sha1 digest (fun offset => data.getD offset 0) 0 data.length := by
  have kept : data.length % 2 ^ 32 = data.length := Nat.mod_eq_of_lt short
  have received : (assembleFrame digest heap data ty).sdata.bytes 68 data.length =
      data :=
    Memory.bytes_eq fun offset inRange =>
      assembleFrame_data digest heap data ty inRange
  have given : Memory.bytes (fun offset => data.getD offset 0) 0 data.length =
      data :=
    Memory.bytes_eq fun offset inRange => by simp [inRange]
  rw [sha1, sha1, kept, received, given]

end Frame

structure ReadBack (data : List UInt8) (ty : NtType) (frame : SentFrame)
    (handled : Handled) : Prop where
  checked : handled.ckcodeDiffers = false
  type_eq : handled.type = ty.code
  len_eq : handled.len = data.length
  data_eq : frame.sdata.bytes handled.data handled.len = data
  tail_stands : ntptcliTail.StandsAt frame.sdata handled.tail
  inside : handled.ReadsBelow frame.sdata frame.slen

theorem assembleFrame_readBack (digest : List UInt8 → Digest)
    (ntLogLevel : Int) (heap : Memory) (data : List UInt8) (ty : NtType)
    (short : data.length < 2 ^ 32) :
    ReadBack data ty (assembleFrame digest heap data ty)
      (ntptclHandle digest ntLogLevel (assembleFrame digest heap data ty).sdata
        (assembleFrame digest heap data ty).slen) := by
  have len := assembleFrame_len digest heap data ty short
  have slen := assembleFrame_slen digest heap data ty
  constructor
  case checked =>
    have same : strncmp
        (hexresult (sha1 digest (assembleFrame digest heap data ty).sdata 68
          data.length)).byteAt
        (fun offset => (assembleFrame digest heap data ty).sdata (20 + offset))
        41 = 0 := by
      apply strncmp_eq_zero
      intro offset inRange
      rw [assembleFrame_ntptclid _ _ _ _ (by omega),
        ntptclid_ckcode _ _ inRange, assembleFrame_sha1 _ _ _ _ short]
    simp only [ntptclHandle, ntptcliLen, ntptcliSize, ntptcliiSize,
      ntptcliCkcode, len]
    simpa using same
  case type_eq => exact assembleFrame_type digest heap data ty
  case len_eq => exact len
  case data_eq =>
    have fieldLen : (ntptclHandle digest ntLogLevel
        (assembleFrame digest heap data ty).sdata
        (assembleFrame digest heap data ty).slen).len = data.length := len
    rw [fieldLen]
    exact Memory.bytes_eq fun offset inRange =>
      assembleFrame_data digest heap data ty inRange
  case tail_stands =>
    apply CString.standsAt_of_byteAt
    intro offset inRange
    simp only [ntptclHandle, ntptcliLen, ntptcliSize, ntptcliiSize, len]
    exact assembleFrame_tail digest heap data ty inRange
  case inside =>
    apply ntptclHandle_readsBelow
    · omega
    · intro _
      refine ⟨68 + data.length + 12, by omega, by omega, ?_⟩
      exact assembleFrame_tail digest heap data ty (by omega)

/-- Every frame that is assembled is read back as it was meant, from inside the
frame. -/
theorem ntptclHandle_ntptclSend (digest : List UInt8 → Digest)
    (ntLogLevel : Int) (heap : Memory) (data : List UInt8) (ty : NtType)
    (short : data.length < 2 ^ 32)
    (framed : ty = .string ∨ ty = .cmd ∨ ty = .status) :
    ∃ frame, ntptclSend digest heap data ty = some frame ∧
      frame.slen = 81 + data.length ∧
      ReadBack data ty frame
        (ntptclHandle digest ntLogLevel frame.sdata frame.slen) := by
  refine ⟨assembleFrame digest heap data ty, ?_, ?_, ?_⟩
  · rcases framed with rfl | rfl | rfl
    all_goals rfl
  · exact assembleFrame_slen digest heap data ty
  · exact assembleFrame_readBack digest ntLogLevel heap data ty short

theorem ntptclHandle_ntptclSend_cmd :
    ∃ frame, ntptclSend (fun _ => Vector.replicate 20 0xab) (fun _ => 7)
        [0, 200, 0] .cmd = some frame ∧
      frame.slen = 81 + 3 ∧
      ReadBack [0, 200, 0] .cmd frame
        (ntptclHandle (fun _ => Vector.replicate 20 0xab) 5 frame.sdata
          frame.slen) :=
  ntptclHandle_ntptclSend _ 5 _ [0, 200, 0] .cmd (by decide)
    (Or.inr (Or.inl rfl))

end NtShm
