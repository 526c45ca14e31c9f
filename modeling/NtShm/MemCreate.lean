import NtShm.CStrings
import NtShm.MemRuns

/-!
# The layout made by `nt_mem_create`

The header, the bucket pointers, two strings and the arena are cut one after
the other from a segment, with 64-bit subtractions from the size that is left.
The only check is made before the first cut.
-/

namespace NtShm

/-- `sizeof(nt_mem_info_t)`. -/
def ntMemInfoSize : Nat := 88

/-- `ALIGN8`, which is also `ALIGNPTR` for pointers of eight bytes. -/
def align8 (ptr : Nat) : Nat := u64Add ptr 7 &&& (2 ^ 64 - 1 - 7)

/-- `NT_NULL2STR`. -/
def ntNull2str : Option CString → CString
  | some text => text
  | none => ⟨[40, 110, 117, 108, 108, 41], by decide⟩

/-- What `nt_mem_create` leaves: the address of the header, the header with the
memory, and the subtractions from `size` in the order in which they were made,
each as the number and what was taken from it. -/
structure MemCreated where
  infoAddress : Nat
  arena : Arena
  subtractions : List (Nat × Nat)

/-- `nt_mem_create` once a segment is attached at `base`. -/
def memLayout (mem : Memory) (shmId : Int) (base size : Nat)
    (descr param : CString) (allowOom : Int) : MemCreated :=
  let info := align8 base
  let infoCut := (size, info + ntMemInfoSize - base)
  let size₁ := u64Sub infoCut.1 infoCut.2
  let base₁ := info + ntMemInfoSize
  let buckets := align8 base₁
  let mem := mem.fill buckets (memBucketCount * ntPtrSize) fun _ => 0
  let bucketsCut := (size₁, buckets + memBucketCount * ntPtrSize - base₁)
  let size₂ := u64Sub bucketsCut.1 bucketsCut.2
  let base₂ := buckets + memBucketCount * ntPtrSize
  let mem := (ntStrlcpy mem base₂ descr size₂).1
  let descrCut := (size₂, descr.length + 1)
  let size₃ := u64Sub descrCut.1 descrCut.2
  let base₃ := base₂ + descr.length + 1
  let mem := (ntStrlcpy mem base₃ param size₃).1
  let paramCut := (size₃, param.length + 1)
  let size₄ := u64Sub paramCut.1 paramCut.2
  let base₄ := base₃ + param.length + 1
  let loBound := align8 base₄
  let hiBound := align8 (u64Sub (u64Add base₄ size₄) 8)
  { infoAddress := info
    arena := memSetFirstChunk
      { buckets := buckets
        loBound := loBound
        hiBound := hiBound
        freeSize := 0
        usedSize := 0
        origSize := size
        totalSize := u64Sub (u64Sub hiBound loBound) (2 * memSizeField)
        shmId := shmId
        allowOom := allowOom.bmod 256
        memDescr := base₂
        memParam := base₃
        mem := mem }
    subtractions := [infoCut, bucketsCut, descrCut, paramCut] }

/-- `nt_mem_create`.  `shmget` and `shmat` are what these calls return, with
`none` for `(void *)(-1)`; the result of `shmctl` is only logged. -/
def ntMemCreate (mem : Memory) (shmget : Int) (shmat : Option Nat)
    (strerror : String) (size : Nat) (descr param : Option CString)
    (allowOom : Int) : Except String MemCreated :=
  let descr := ntNull2str descr
  let param := ntNull2str param
  if ¬ (memMinSize ≤ size ∧ size ≤ memMaxSize) then
    .error ("requested size " ++ toString size ++ " not within bounds [" ++
      toString memMinSize ++ " <= size <= " ++ toString memMaxSize ++ "]")
  else if shmget = -1 then
    .error ("cannot get private shared memory of size " ++ toString size ++
      " for " ++ descr.toText ++ ": " ++ strerror)
  else
    match shmat with
    | none =>
        .error ("cannot attach shared memory for " ++ descr.toText ++ ": " ++
          strerror)
    | some base => .ok (memLayout mem shmget base size descr param allowOom)

section Alignment

theorem and_high_bits {ptr : Nat} (fits : ptr < 2 ^ 64) :
    ptr &&& (2 ^ 64 - 1 - 7) = ptr / 8 * 8 := by
  have mask : (2 ^ 64 - 1 - 7 : Nat) = (2 ^ 61 - 1) <<< 3 := by decide
  have cut : ptr / 8 * 8 = (ptr >>> 3) <<< 3 := by
    rw [Nat.shiftRight_eq_div_pow, Nat.shiftLeft_eq]
  rw [mask, cut]
  refine Nat.eq_of_testBit_eq fun index => ?_
  simp only [Nat.testBit_and, Nat.testBit_shiftLeft, Nat.testBit_shiftRight,
    Nat.testBit_two_pow_sub_one]
  by_cases low : 3 ≤ index
  · by_cases high : index - 3 < 61
    · simp [low, high]
    · have zero : ptr.testBit index = false :=
        Nat.testBit_lt_two_pow (lt_of_lt_of_le fits
          (Nat.pow_le_pow_right (by norm_num) (by omega)))
      have shift : 3 + (index - 3) = index := by omega
      simp [low, high, shift, zero]
  · simp [low]

theorem align8_eq {ptr : Nat} (fits : ptr + 7 < 2 ^ 64) :
    align8 ptr = (ptr + 7) / 8 * 8 := by
  rw [align8, u64Add_of_lt fits, and_high_bits fits]

theorem align8_of_aligned {ptr : Nat} (fits : ptr + 7 < 2 ^ 64)
    (aligned : ptr % 8 = 0) : align8 ptr = ptr := by
  rw [align8_eq fits]
  omega

end Alignment

/-- What a caller may rely on after `nt_mem_create` returned `SUCCEED`: header,
bucket pointers, strings and arena follow each other inside the segment, and
no subtraction wrapped around. -/
structure CreatedLayout (base size : Nat) (descr param : CString)
    (created : MemCreated) : Prop where
  headerAfter : base ≤ created.infoAddress
  bucketsAfter : created.infoAddress + ntMemInfoSize ≤ created.arena.buckets
  descrAfter : created.arena.buckets + memBucketCount * ntPtrSize ≤
    created.arena.memDescr
  paramAfter : created.arena.memDescr + descr.length + 1 ≤ created.arena.memParam
  arenaAfter : created.arena.memParam + param.length + 1 ≤ created.arena.loBound
  inside : created.arena.hiBound ≤ base + size
  descrCopy : descr.StandsAt created.arena.mem created.arena.memDescr
  paramCopy : param.StandsAt created.arena.mem created.arena.memParam
  loAligned : created.arena.loBound % 8 = 0
  hiAligned : created.arena.hiBound % 8 = 0
  room : created.arena.loBound + 40 ≤ created.arena.hiBound
  exact : ∀ cut ∈ created.subtractions, cut.2 ≤ cut.1
  total : created.arena.loBound + created.arena.totalSize + 16 =
    created.arena.hiBound

def roundUp8 (value : Nat) : Nat := (value + 7) / 8 * 8

/-- The least size of a segment at `base` that has room for everything. -/
def leastSegment (base : Nat) (descr param : CString) : Nat :=
  roundUp8 base - base + roundUp8 (330 + descr.length + param.length) + 41

section Layout

variable {mem : Memory} {shmId allowOom : Int} {base size : Nat}
  {descr param : CString}

theorem align8_base (segment : base + size ≤ 2 ^ 64) (least : 128 ≤ size) :
    align8 base = roundUp8 base ∧
      align8 (roundUp8 base + 88) = roundUp8 base + 88 ∧
      base ≤ roundUp8 base ∧ roundUp8 base < base + 8 ∧
      roundUp8 base % 8 = 0 := by
  have rounded : align8 base = roundUp8 base := align8_eq (by omega)
  have bounds : base ≤ roundUp8 base ∧ roundUp8 base < base + 8 ∧
      roundUp8 base % 8 = 0 := by
    unfold roundUp8
    omega
  exact ⟨rounded, align8_of_aligned (by omega) (by omega), bounds⟩

theorem memLayout_eq (segment : base + size ≤ 2 ^ 64) (least : 128 ≤ size)
    (small : size ≤ 2 ^ 36)
    (fits : roundUp8 base + 330 + descr.length + param.length ≤ base + size) :
    memLayout mem shmId base size descr param allowOom =
      { infoAddress := roundUp8 base
        arena := memSetFirstChunk
          { buckets := roundUp8 base + 88
            loBound := align8 (roundUp8 base + 330 + descr.length + param.length)
            hiBound := (base + size - 1) / 8 * 8
            freeSize := 0
            usedSize := 0
            origSize := size
            totalSize := u64Sub (u64Sub ((base + size - 1) / 8 * 8)
              (align8 (roundUp8 base + 330 + descr.length + param.length))) 16
            shmId := shmId
            allowOom := allowOom.bmod 256
            memDescr := roundUp8 base + 328
            memParam := roundUp8 base + 329 + descr.length
            mem := (ntStrlcpy (ntStrlcpy
              (mem.fill (roundUp8 base + 88) 240 fun _ => 0)
              (roundUp8 base + 328) descr
                (base + size - (roundUp8 base + 328))).1
              (roundUp8 base + 329 + descr.length) param
                (base + size - (roundUp8 base + 329 + descr.length))).1 }
        subtractions :=
          [(size, roundUp8 base + 88 - base),
            (base + size - (roundUp8 base + 88), 240),
            (base + size - (roundUp8 base + 328), descr.length + 1),
            (base + size - (roundUp8 base + 329 + descr.length),
              param.length + 1)] } := by
  obtain ⟨infoEq, bucketsEq, low, high, _⟩ := align8_base segment least
  have cut₁ : u64Sub size (roundUp8 base + 88 - base) =
      base + size - (roundUp8 base + 88) := by
    rw [u64Sub_of_le (by omega) (by omega)]
    omega
  have cut₂ : u64Sub (base + size - (roundUp8 base + 88)) 240 =
      base + size - (roundUp8 base + 328) := by
    rw [u64Sub_of_le (by omega) (by omega)]
    omega
  have cut₃ : u64Sub (base + size - (roundUp8 base + 328)) (descr.length + 1) =
      base + size - (roundUp8 base + 329 + descr.length) := by
    rw [u64Sub_of_le (by omega) (by omega)]
    omega
  have cut₄ : u64Sub (base + size - (roundUp8 base + 329 + descr.length))
        (param.length + 1) =
      base + size - (roundUp8 base + 330 + descr.length + param.length) := by
    rw [u64Sub_of_le (by omega) (by omega)]
    omega
  have top : align8 (u64Sub (u64Add
      (roundUp8 base + 330 + descr.length + param.length)
      (base + size - (roundUp8 base + 330 + descr.length + param.length))) 8) =
      (base + size - 1) / 8 * 8 := by
    have sum : u64Sub (u64Add
        (roundUp8 base + 330 + descr.length + param.length)
        (base + size - (roundUp8 base + 330 + descr.length + param.length))) 8 =
        base + size - 8 := by
      unfold u64Sub u64Add
      omega
    have rounded : base + size - 8 + 7 = base + size - 1 := by omega
    rw [sum, align8_eq (by omega), rounded]
  have span₂ : roundUp8 base + 88 + 240 - (roundUp8 base + 88) = 240 := by omega
  have start₂ : roundUp8 base + 88 + 240 = roundUp8 base + 328 := by omega
  have start₃ : roundUp8 base + 328 + descr.length + 1 =
      roundUp8 base + 329 + descr.length := by omega
  have start₄ : roundUp8 base + 329 + descr.length + param.length + 1 =
      roundUp8 base + 330 + descr.length + param.length := by omega
  simp only [memLayout, ntMemInfoSize, memBucketCount_eq, ntPtrSize_eq,
    memSizeField_eq, Nat.reduceMul, infoEq, bucketsEq, span₂, start₂, start₃,
    start₄, cut₁, cut₂, cut₃, cut₄, top]

theorem fits_of_exact (segment : base + size ≤ 2 ^ 64) (least : 128 ≤ size)
    (small : size ≤ 2 ^ 36)
    (exact' : ∀ cut ∈ (memLayout mem shmId base size descr param
      allowOom).subtractions, cut.2 ≤ cut.1) :
    roundUp8 base + 330 + descr.length + param.length ≤ base + size := by
  obtain ⟨infoEq, bucketsEq, low, high, _⟩ := align8_base segment least
  have span₂ : roundUp8 base + 88 + 240 - (roundUp8 base + 88) = 240 := by omega
  simp only [memLayout, ntMemInfoSize, memBucketCount_eq, ntPtrSize_eq,
    Nat.reduceMul, infoEq, bucketsEq, span₂, List.forall_mem_cons,
    List.not_mem_nil, false_implies, implies_true, and_true] at exact'
  obtain ⟨cut₁, cut₂, cut₃, cut₄⟩ := exact'
  rw [u64Sub_of_le cut₁ (by omega)] at cut₂ cut₃ cut₄
  rw [u64Sub_of_le cut₂ (by omega)] at cut₃ cut₄
  rw [u64Sub_of_le cut₃ (by omega)] at cut₄
  omega

/-- With enough room the layout is as it should be, and the arena is fresh. -/
theorem memLayout_of_room (segment : base + size ≤ 2 ^ 64) (base_pos : 0 < base)
    (least : 128 ≤ size) (small : size ≤ 2 ^ 36)
    (room : leastSegment base descr param ≤ size) :
    CreatedLayout base size descr param
        (memLayout mem shmId base size descr param allowOom) ∧
      FreshArena (memLayout mem shmId base size descr param allowOom).arena := by
  obtain ⟨_, _, low, high, aligned⟩ := align8_base segment least
  have needed : roundUp8 base - base +
      (330 + descr.length + param.length + 7) / 8 * 8 + 41 ≤ size := room
  have loEq : align8 (roundUp8 base + 330 + descr.length + param.length) =
      roundUp8 base + (330 + descr.length + param.length + 7) / 8 * 8 := by
    rw [align8_eq (by omega)]
    omega
  have totalEq : u64Sub (u64Sub ((base + size - 1) / 8 * 8) (roundUp8 base +
        (330 + descr.length + param.length + 7) / 8 * 8)) 16 =
      (base + size - 1) / 8 * 8 - (roundUp8 base +
        (330 + descr.length + param.length + 7) / 8 * 8) - 16 := by
    have whole : u64Sub ((base + size - 1) / 8 * 8) (roundUp8 base +
        (330 + descr.length + param.length + 7) / 8 * 8) =
        (base + size - 1) / 8 * 8 - (roundUp8 base +
          (330 + descr.length + param.length + 7) / 8 * 8) :=
      u64Sub_of_le (by omega) (by omega)
    rw [whole, u64Sub_of_le (by omega) (by omega)]
  rw [memLayout_eq segment least small (by omega), loEq, totalEq]
  generalize lo : roundUp8 base +
    (330 + descr.length + param.length + 7) / 8 * 8 = loBound at *
  generalize hi : (base + size - 1) / 8 * 8 = hiBound at *
  have descrFits : descr.length < base + size - (roundUp8 base + 328) := by
    omega
  have paramFits : param.length <
      base + size - (roundUp8 base + 329 + descr.length) := by
    omega
  have behind : roundUp8 base + 328 + descr.length + 1 ≤ roundUp8 base + 329 + descr.length := by
    omega
  obtain ⟨descrCopied, paramCopied, below⟩ := ntStrlcpy_twice
    (mem.fill (roundUp8 base + 88) 240 fun _ => 0) descrFits paramFits behind
  generalize (ntStrlcpy (ntStrlcpy (mem.fill (roundUp8 base + 88) 240 fun _ => 0)
    (roundUp8 base + 328) descr (base + size - (roundUp8 base + 328))).1
    (roundUp8 base + 329 + descr.length) param
    (base + size - (roundUp8 base + 329 + descr.length))).1 = mem₂
    at descrCopied paramCopied below ⊢
  set header : NtMemInfo :=
    { buckets := roundUp8 base + 88
      loBound := loBound
      hiBound := hiBound
      freeSize := 0
      usedSize := 0
      origSize := size
      totalSize := hiBound - loBound - 16
      shmId := shmId
      allowOom := allowOom.bmod 256
      memDescr := roundUp8 base + 328
      memParam := roundUp8 base + 329 + descr.length } with headerEq
  have bounds : ArenaBounds header := by
    constructor <;> simp only [headerEq, memMaxSize_eq] <;> omega
  have empty : ∀ index < 30, ({ header with mem := mem₂ } : Arena).bucket index =
      0 := by
    intro index inRange
    have field := bounds.bucketField_low inRange
    refine Memory.load_eq_zero fun position low high => ?_
    simp only [headerEq] at field low high
    exact (below position (by omega)).trans (if_pos ⟨by omega, by omega⟩)
  refine ⟨?_, memSetFirstChunk_fresh (s := { header with mem := mem₂ }) bounds
    empty⟩
  have outside (position : Nat) (low : roundUp8 base + 328 ≤ position)
      (high : position < loBound) :=
    memSetFirstChunk_of_outside (s := { header with mem := mem₂ }) bounds
      (Or.inr low) high
  constructor
  · exact low
  · exact le_refl (roundUp8 base + 88)
  · exact le_refl (roundUp8 base + 328)
  · change roundUp8 base + 328 + descr.length + 1 ≤
      roundUp8 base + 329 + descr.length
    omega
  · change roundUp8 base + 329 + descr.length + param.length + 1 ≤ loBound
    omega
  · change hiBound ≤ base + size
    omega
  · refine descrCopied.of_agree fun position above below => ?_
    exact outside position above (by omega)
  · refine paramCopied.of_agree fun position above below => ?_
    exact outside position (by omega) (by omega)
  · change loBound % 8 = 0
    omega
  · change hiBound % 8 = 0
    omega
  · change loBound + 40 ≤ hiBound
    omega
  · simp only [List.forall_mem_cons, List.not_mem_nil, false_implies,
      implies_true, and_true]
    omega
  · change loBound + (hiBound - loBound - 16) + 16 = hiBound
    omega

theorem room_of_layout (segment : base + size ≤ 2 ^ 64) (least : 128 ≤ size)
    (small : size ≤ 2 ^ 36)
    (layout : CreatedLayout base size descr param
      (memLayout mem shmId base size descr param allowOom)) :
    leastSegment base descr param ≤ size := by
  have fits := fits_of_exact segment least small layout.exact
  obtain ⟨_, _, low, high, aligned⟩ := align8_base segment least
  have after := layout.arenaAfter
  have room := layout.room
  rw [memLayout_eq segment least small fits] at after room
  change roundUp8 base + 329 + descr.length + param.length + 1 ≤
    align8 (roundUp8 base + 330 + descr.length + param.length) at after
  change align8 (roundUp8 base + 330 + descr.length + param.length) + 40 ≤
    (base + size - 1) / 8 * 8 at room
  have noWrap : roundUp8 base + 330 + descr.length + param.length + 7 <
      2 ^ 64 := by
    by_contra wraps
    have cut : align8 (roundUp8 base + 330 + descr.length + param.length) ≤
        u64Add (roundUp8 base + 330 + descr.length + param.length) 7 :=
      Nat.and_le_left
    unfold u64Add at cut
    omega
  rw [align8_eq noWrap] at room
  change roundUp8 base - base +
    (330 + descr.length + param.length + 7) / 8 * 8 + 41 ≤ size
  omega

end Layout

section Create

variable {mem : Memory} {shmget allowOom : Int} {strerror : String}
  {base size : Nat} {descr param : Option CString} {created : MemCreated}

theorem ntMemCreate_ok
    (returned : ntMemCreate mem shmget (some base) strerror size descr param
      allowOom = .ok created) :
    128 ≤ size ∧ size ≤ 2 ^ 36 ∧
      created = memLayout mem shmget base size (ntNull2str descr)
        (ntNull2str param) allowOom := by
  simp only [ntMemCreate] at returned
  split_ifs at returned with admitted got
  exact ⟨admitted.1, admitted.2, (Except.ok.inj returned).symm⟩

/-- Whenever `nt_mem_create` returns `SUCCEED`, the layout is right exactly if
the segment is not smaller than what header, bucket pointers, strings and a
first chunk take. -/
theorem ntMemCreate_layout_iff (segment : base + size ≤ 2 ^ 64)
    (base_pos : 0 < base)
    (returned : ntMemCreate mem shmget (some base) strerror size descr param
      allowOom = .ok created) :
    CreatedLayout base size (ntNull2str descr) (ntNull2str param) created ↔
      leastSegment base (ntNull2str descr) (ntNull2str param) ≤ size := by
  obtain ⟨least, small, rfl⟩ := ntMemCreate_ok returned
  exact ⟨room_of_layout segment least small,
    fun room => (memLayout_of_room segment base_pos least small room).1⟩

theorem ntMemCreate_layout_iff_page : ∃ created,
    ntMemCreate (fun _ => 0) 7 (some 4096) "" 4096 none none 0 = .ok created ∧
      CreatedLayout 4096 4096 (ntNull2str none) (ntNull2str none) created := by
  have returned : ntMemCreate (fun _ => 0) 7 (some 4096) "" 4096 none none 0 =
      .ok (memLayout (fun _ => 0) 7 4096 4096 (ntNull2str none)
        (ntNull2str none) 0) := rfl
  exact ⟨_, returned, (ntMemCreate_layout_iff (by norm_num) (by norm_num)
    returned).mpr (by decide)⟩

/-- At the least size that is admitted the arena ends before it starts. -/
theorem ntMemCreate_layout_fails : ∃ created,
    ntMemCreate (fun _ => 0) 7 (some 4096) "" 128 none none 0 = .ok created ∧
      created.arena.loBound = 4440 ∧ created.arena.hiBound = 4216 ∧
      ¬ CreatedLayout 4096 128 (ntNull2str none) (ntNull2str none) created := by
  refine ⟨_, rfl, by decide, by decide, fun layout => ?_⟩
  exact absurd layout.room (by decide)

end Create

end NtShm
