import OsLabs.Weensy.Boot

/-!
# The boot image and the boot loader

`mkbootdisk` writes the boot sector, then the kernel file from sector 1 on; the
boot loader reads sectors.  `bootReadseg_loads` brings the two together: whatever
the file offset and the address of a segment are, as long as they agree modulo the
sector size, the bytes arrive where the program header wants them.
-/

set_option autoImplicit false

namespace OsLabs.Weensy

open OsLabs.ByteMemory OsLabs.ExceptRules

/-! ## mkbootdisk -/

inductive WriteReply where
  | wrote (count : Nat)
  | interrupted
  | failed
  deriving DecidableEq

/-- Why `mkbootdisk` makes no image. -/
inductive MkbootdiskStop where
  | usage
  /-- A call of `write` has not returned. -/
  | pending
  deriving DecidableEq

/-- Standard output, and the replies of the calls of `write` to come. -/
structure DiskFile where
  output : List UInt8
  replies : List WriteReply

/-- The loop of `diskwrite`, over the replies; without a partition there is no
`maxoff` to check. -/
def diskwriteLoop : List WriteReply → List UInt8 → List UInt8 →
    Except MkbootdiskStop DiskFile
  | replies, output, [] => .ok ⟨output, replies⟩
  | [], _, _ :: _ => .error .pending
  | .failed :: _, _, _ :: _ => .error .usage
  | .interrupted :: rest, output, byte :: more =>
      diskwriteLoop rest output (byte :: more)
  | .wrote 0 :: _, _, _ :: _ => .error .usage
  | .wrote (w + 1) :: rest, output, byte :: more =>
      diskwriteLoop rest (output ++ (byte :: more).take (w + 1))
        ((byte :: more).drop (w + 1))

def diskwrite (file : DiskFile) (data : List UInt8) : Except MkbootdiskStop DiskFile :=
  diskwriteLoop file.replies file.output data

def zerobuf : List UInt8 := List.replicate 512 0

def writeZeroSectors : Nat → DiskFile → Except MkbootdiskStop DiskFile
  | 0, file => .ok file
  | count + 1, file => do
      let file ← diskwrite file zerobuf
      writeZeroSectors count file

/-- The boot sector with its signature; `fread` gets at most 4096 bytes. -/
def writeBootSector (file : DiskFile) (contents : List UInt8) :
    Except MkbootdiskStop DiskFile :=
  let buf := contents.take 4096
  if buf.length > 510 then .error .usage
  else diskwrite file (buf ++ List.replicate (510 - buf.length) 0 ++ [0x55, 0xAA])

/-- The loop that copies a file in pieces of 4096 bytes, with fuel for its iterations;
`pos` counts the bytes. -/
def copyFile : Nat → Nat → List UInt8 → DiskFile → Except MkbootdiskStop (Nat × DiskFile)
  | 0, pos, _, file => .ok (pos, file)
  | fuel + 1, pos, contents, file =>
      let buf := contents.take 4096
      if 0 < buf.length then do
        let file ← diskwrite file buf
        copyFile fuel (pos + buf.length) (contents.drop 4096) file
      else .ok (pos, file)

/-- An argument behind the boot sector file: a file, or `@SECNUM`. -/
inductive DiskArgument where
  | file (contents : List UInt8)
  | skipto (sector : Nat)

/-- One round of the loop over the arguments, with `nsectors`. -/
def writeArgument (argument : DiskArgument) (nsectors : Nat) (file : DiskFile) :
    Except MkbootdiskStop (Nat × DiskFile) :=
  match argument with
  | .skipto sector =>
      if nsectors > sector then .error .usage
      else do
        let file ← writeZeroSectors (sector - nsectors) file
        .ok (sector, file)
  | .file contents => do
      let (pos, file) ← copyFile contents.length 0 contents file
      if pos % 512 ≠ 0 then do
        let file ← diskwrite file (zerobuf.take (512 - pos % 512))
        .ok (nsectors + (pos + (512 - pos % 512)) / 512, file)
      else .ok (nsectors + pos / 512, file)

def writeArguments : List DiskArgument → Nat → DiskFile →
    Except MkbootdiskStop (Nat × DiskFile)
  | [], nsectors, file => .ok (nsectors, file)
  | argument :: rest, nsectors, file => do
      let (nsectors, file) ← writeArgument argument nsectors file
      writeArguments rest nsectors file

/-- `main` without the options `-p` and `-m`: the bytes written. -/
def mkbootdisk (bootSector : List UInt8) (arguments : List DiskArgument)
    (replies : List WriteReply) : Except MkbootdiskStop (List UInt8) := do
  let file ← writeBootSector ⟨[], replies⟩ bootSector
  let (nsectors, file) ← writeArguments arguments 1 file
  let file ← writeZeroSectors (1024 - nsectors) file
  .ok file.output

/-! ## boot.c -/

inductive BootStop where
  /-- A loop that does not end. -/
  | spins
  /-- The sector number runs into the drive selection. -/
  | wrongDrive
  deriving DecidableEq

/-- `boot_readsect`; the ports take 28 bits of a sector number. -/
def bootReadsect (disk : Nat → UInt8) (memory : Memory) (dst : UIntPtr)
    (srcSect : BitVec 32) : Except BootStop Memory :=
  if srcSect.toNat < 2 ^ 28 then
    .ok (blit memory dst.toNat 512 fun i => disk (512 * srcSect.toNat + i))
  else .error .wrongDrive

/-- The first loop of `boot_readseg`, with fuel for its iterations. -/
def readSectors (disk : Nat → UInt8) (endPtr : UIntPtr) :
    Nat → UIntPtr → BitVec 32 → Memory → Except BootStop Memory
  | 0, _, _, _ => .error .spins
  | fuel + 1, ptr, srcSect, memory =>
      if ptr < endPtr then do
        let memory ← bootReadsect disk memory ptr srcSect
        readSectors disk endPtr fuel (ptr + 512#64) (srcSect + 1#32) memory
      else .ok memory

/-- The second loop, which has `count` iterations left. -/
def clearBytes : Nat → UIntPtr → Memory → Memory
  | 0, _, memory => memory
  | count + 1, endPtr, memory =>
      clearBytes count (endPtr + 1#64) (Function.update memory endPtr.toNat 0)

/-- `boot_readseg`.  The pointer of the first loop takes `2 ^ 55` values, so a run with
more iterations than that is back at its start. -/
def bootReadseg (disk : Nat → UInt8) (memory : Memory) (ptr : UIntPtr)
    (srcSect : BitVec 32) (filesz memsz : UIntPtr) : Except BootStop Memory := do
  let endPtr := ptr + filesz
  let memsz := memsz + ptr
  let memory ← readSectors disk endPtr (2 ^ 55 + 1) (ptr &&& ~~~511#64) srcSect memory
  .ok (clearBytes (memsz.toNat - endPtr.toNat) endPtr memory)

/-! ## What is written -/

theorem diskwriteLoop_output {replies : List WriteReply} {output data : List UInt8}
    {after : DiskFile} (run : diskwriteLoop replies output data = .ok after) :
    after.output = output ++ data := by
  induction replies, output, data using diskwriteLoop.induct with
  | case1 replies output =>
      rw [diskwriteLoop] at run
      cases run
      simp
  | case2 output byte more =>
      rw [diskwriteLoop] at run
      cases run
  | case3 rest output byte more =>
      rw [diskwriteLoop] at run
      cases run
  | case4 rest output byte more ih =>
      rw [diskwriteLoop] at run
      exact ih run
  | case5 rest output byte more =>
      rw [diskwriteLoop] at run
      cases run
  | case6 w rest output byte more ih =>
      rw [diskwriteLoop] at run
      rw [ih run, List.append_assoc, List.take_append_drop]

theorem diskwrite_output {file after : DiskFile} {data : List UInt8}
    (run : diskwrite file data = .ok after) : after.output = file.output ++ data :=
  diskwriteLoop_output run

theorem writeZeroSectors_output {count : Nat} {file after : DiskFile}
    (run : writeZeroSectors count file = .ok after) :
    after.output = file.output ++ List.replicate (512 * count) 0 := by
  induction count generalizing file with
  | zero =>
      cases run
      simp
  | succ count ih =>
      unfold writeZeroSectors at run
      obtain ⟨middle, wrote, run⟩ := bind_eq_ok.mp run
      rw [ih run, diskwrite_output wrote, zerobuf, List.append_assoc,
        List.replicate_append_replicate]
      congr 2
      omega

theorem writeBootSector_output {file after : DiskFile} {contents : List UInt8}
    (run : writeBootSector file contents = .ok after) :
    contents.length ≤ 510 ∧
      after.output = file.output ++
        (contents ++ List.replicate (510 - contents.length) 0 ++ [0x55, 0xAA]) := by
  unfold writeBootSector at run
  simp only [List.length_take] at run
  by_cases large : min 4096 contents.length > 510
  · rw [if_pos large] at run
    cases run
  · rw [if_neg large] at run
    have fits : contents.length ≤ 510 := by omega
    have whole : contents.take 4096 = contents := List.take_of_length_le (by omega)
    have wrote := diskwrite_output run
    rw [whole, show min 4096 contents.length = contents.length by omega] at wrote
    exact ⟨fits, wrote⟩

theorem copyFile_output {fuel pos reached : Nat} {contents : List UInt8}
    {file after : DiskFile} (enough : contents.length ≤ fuel)
    (run : copyFile fuel pos contents file = .ok (reached, after)) :
    reached = pos + contents.length ∧ after.output = file.output ++ contents := by
  induction fuel generalizing pos contents file with
  | zero =>
      have empty : contents = [] := List.eq_nil_of_length_eq_zero (by omega)
      cases run
      simp [empty]
  | succ fuel ih =>
      unfold copyFile at run
      simp only [List.length_take] at run
      by_cases more : 0 < min 4096 contents.length
      · rw [if_pos more] at run
        obtain ⟨middle, wrote, run⟩ := bind_eq_ok.mp run
        have rest : (contents.drop 4096).length ≤ fuel := by
          rw [List.length_drop]
          omega
        obtain ⟨position, output⟩ := ih rest run
        rw [List.length_drop] at position
        refine ⟨by omega, ?_⟩
        rw [output, diskwrite_output wrote, List.append_assoc, List.take_append_drop]
      · rw [if_neg more] at run
        have empty : contents = [] := List.eq_nil_of_length_eq_zero (by omega)
        cases run
        simp [empty]

theorem writeArgument_file {contents : List UInt8} {nsectors reached : Nat}
    {file after : DiskFile}
    (run : writeArgument (.file contents) nsectors file = .ok (reached, after)) :
    ∃ padding, after.output = file.output ++ contents ++ List.replicate padding 0 := by
  unfold writeArgument at run
  simp only at run
  obtain ⟨⟨pos, middle⟩, copied, run⟩ := bind_eq_ok.mp run
  obtain ⟨_, output⟩ := copyFile_output (Nat.le_refl _) copied
  simp only at run
  by_cases partly : pos % 512 ≠ 0
  · rw [if_pos partly] at run
    obtain ⟨padded, wrote, run⟩ := bind_eq_ok.mp run
    cases run
    refine ⟨min (512 - pos % 512) 512, ?_⟩
    rw [diskwrite_output wrote, output, zerobuf, List.take_replicate]
  · rw [if_neg partly] at run
    cases run
    exact ⟨0, by simp [output]⟩

/-- The image made from a kernel file: the boot sector, the file, zeros. -/
theorem mkbootdisk_kernel {bootSector kernel image : List UInt8}
    {replies : List WriteReply}
    (made : mkbootdisk bootSector [.file kernel] replies = .ok image) :
    bootSector.length ≤ 510 ∧ ∃ padding, image =
      bootSector ++ List.replicate (510 - bootSector.length) 0 ++ [0x55, 0xAA] ++
        kernel ++ List.replicate padding 0 := by
  unfold mkbootdisk at made
  obtain ⟨first, boots, made⟩ := bind_eq_ok.mp made
  obtain ⟨⟨nsectors, second⟩, files, made⟩ := bind_eq_ok.mp made
  obtain ⟨third, filled, made⟩ := bind_eq_ok.mp made
  cases made
  obtain ⟨fits, sector⟩ := writeBootSector_output boots
  unfold writeArguments at files
  obtain ⟨⟨reached, middle⟩, wrote, rest⟩ := bind_eq_ok.mp files
  cases rest
  obtain ⟨padding, output⟩ := writeArgument_file wrote
  have zeros := writeZeroSectors_output filled
  refine ⟨fits, padding + 512 * (1024 - nsectors), ?_⟩
  rw [zeros, output, sector]
  simp [List.replicate_append_replicate]

/-- Byte `i` of the kernel file is 512 bytes further on in the image. -/
theorem mkbootdisk_byte {bootSector kernel image : List UInt8}
    {replies : List WriteReply}
    (made : mkbootdisk bootSector [.file kernel] replies = .ok image) {i : Nat}
    (inside : i < kernel.length) : image[512 + i]? = kernel[i]? := by
  obtain ⟨fits, padding, rfl⟩ := mkbootdisk_kernel made
  have sector : (bootSector ++ List.replicate (510 - bootSector.length) (0 : UInt8) ++
      [0x55, 0xAA]).length = 512 := by
    simp only [List.length_append, List.length_replicate, List.length_cons,
      List.length_nil]
    omega
  rw [List.append_assoc, List.getElem?_append_right (by omega), sector,
    Nat.add_sub_cancel_left, List.getElem?_append_left inside]

/-! ## What is loaded -/

theorem high55_getLsbD : ∀ i < 64, (~~~511#64).getLsbD i = decide (9 ≤ i) := by
  decide

theorem roundDownSector_toNat (ptr : UIntPtr) :
    (ptr &&& ~~~511#64).toNat = ptr.toNat / 512 * 512 := by
  have shift : ptr &&& ~~~511#64 = (ptr >>> 9) <<< 9 := by
    apply BitVec.eq_of_getLsbD_eq
    intro i bound
    rw [BitVec.getLsbD_and, high55_getLsbD i bound, BitVec.getLsbD_shiftLeft,
      BitVec.getLsbD_ushiftRight]
    by_cases small : i < 9
    · simp [small]
    · have recombine : 9 + (i - 9) = i := by omega
      have large : 9 ≤ i := by omega
      simp [small, bound, large, recombine]
  have bound := ptr.isLt
  rw [shift, BitVec.toNat_shiftLeft, BitVec.toNat_ushiftRight,
    Nat.shiftRight_eq_div_pow, Nat.shiftLeft_eq]
  omega

theorem readSectors_ok (disk : Nat → UInt8) {endPtr : UIntPtr} (count : Nat) {fuel : Nat}
    (enough : count < fuel) {ptr : UIntPtr} {srcSect : BitVec 32} (memory : Memory)
    (whole : count = (endPtr.toNat - ptr.toNat + 511) / 512)
    (fits : ptr.toNat + 512 * count < 2 ^ 64)
    (sectors : count = 0 ∨ srcSect.toNat + count ≤ 2 ^ 28) :
    readSectors disk endPtr fuel ptr srcSect memory =
      .ok (blit memory ptr.toNat (512 * count) fun i => disk (512 * srcSect.toNat + i)) := by
  induction count generalizing fuel ptr srcSect memory with
  | zero =>
      obtain ⟨fuel, rfl⟩ := Nat.exists_eq_succ_of_ne_zero (by omega : fuel ≠ 0)
      have finished : ¬ ptr < endPtr := by
        rw [BitVec.lt_def]
        omega
      rw [readSectors, if_neg finished, Nat.mul_zero, blit_zero]
  | succ count ih =>
      obtain ⟨fuel, rfl⟩ := Nat.exists_eq_succ_of_ne_zero (by omega : fuel ≠ 0)
      have more : ptr < endPtr := by
        rw [BitVec.lt_def]
        omega
      have inRange : srcSect.toNat < 2 ^ 28 := by omega
      have nextPtr : (ptr + 512#64).toNat = ptr.toNat + 512 := by
        rw [BitVec.toNat_add, BitVec.toNat_ofNat]
        omega
      have nextSect : (srcSect + 1#32).toNat = srcSect.toNat + 1 := by
        rw [BitVec.toNat_add, BitVec.toNat_ofNat]
        omega
      have joined := blit_blit memory ptr.toNat 512 (512 * count)
        (fun i => disk (512 * srcSect.toNat + i)) (fun i => disk (512 * srcSect.toNat + i))
        (fun i => disk (512 * (srcSect.toNat + 1) + i))
        (fun _ _ => rfl) (fun i _ => congrArg disk (by omega))
      have size : 512 + 512 * count = 512 * (count + 1) := by omega
      rw [readSectors, if_pos more, bootReadsect, if_pos inRange, ok_bind,
        ih (by omega) _ (by omega) (by omega) (by omega), nextPtr, nextSect, joined,
        size]

theorem clearBytes_eq_fill (count : Nat) (endPtr : UIntPtr) (memory : Memory)
    (fits : endPtr.toNat + count < 2 ^ 64) :
    clearBytes count endPtr memory = fill memory endPtr.toNat count 0 := by
  induction count generalizing endPtr memory with
  | zero =>
      funext x
      rw [clearBytes, fill, if_neg (by omega)]
  | succ count ih =>
      have next : (endPtr + 1#64).toNat = endPtr.toNat + 1 := by
        rw [BitVec.toNat_add, BitVec.toNat_ofNat]
        omega
      rw [clearBytes, ih _ _ (by omega), next]
      funext x
      by_cases first : x = endPtr.toNat
      · rw [fill, fill, if_neg (by omega), if_pos (by omega), first, Function.update_self]
      · simp only [fill, Function.update_of_ne first]
        congr 1
        apply propext
        omega

/-- What `boot_readseg` leaves: the sectors that hold the file part, then zeros. -/
theorem bootReadseg_ok (disk : Nat → UInt8) (memory : Memory) {ptr filesz memsz : UIntPtr}
    {srcSect : BitVec 32} (shorter : filesz.toNat ≤ memsz.toNat)
    (memEnd : ptr.toNat + memsz.toNat < 2 ^ 64)
    (fileEnd : (ptr.toNat + filesz.toNat + 511) / 512 * 512 < 2 ^ 64)
    (sectors : srcSect.toNat + (ptr.toNat % 512 + filesz.toNat + 511) / 512 ≤ 2 ^ 28 ∨
      ptr.toNat % 512 + filesz.toNat = 0) :
    bootReadseg disk memory ptr srcSect filesz memsz =
      .ok (fill (blit memory (ptr.toNat / 512 * 512)
        (512 * ((ptr.toNat % 512 + filesz.toNat + 511) / 512))
        fun i => disk (512 * srcSect.toNat + i))
        (ptr.toNat + filesz.toNat) (memsz.toNat - filesz.toNat) 0) := by
  have rounded := roundDownSector_toNat ptr
  have endPtr : (ptr + filesz).toNat = ptr.toNat + filesz.toNat := by
    rw [BitVec.toNat_add]
    omega
  have endMem : (memsz + ptr).toNat = ptr.toNat + memsz.toNat := by
    rw [BitVec.toNat_add]
    omega
  have read : readSectors disk (ptr + filesz) (2 ^ 55 + 1) (ptr &&& ~~~511#64) srcSect
      memory = .ok (blit memory (ptr &&& ~~~511#64).toNat
        (512 * ((ptr.toNat % 512 + filesz.toNat + 511) / 512))
        fun i => disk (512 * srcSect.toNat + i)) :=
    readSectors_ok disk _ (by omega) memory (by omega) (by omega) (by omega)
  rw [bootReadseg, read, ok_bind, rounded, clearBytes_eq_fill _ _ _ (by omega), endPtr,
    endMem]
  congr 2
  omega

def Inserted (image : List UInt8) (disk : Nat → UInt8) : Prop :=
  ∀ i byte, image[i]? = some byte → disk i = byte

/-- What the boot loader owes a segment of the kernel file. -/
structure SegmentRead (kernel : List UInt8) (ph : ElfProgram) (before after : Memory) :
    Prop where
  copied : ∀ i, i < ph.pFilesz.toNat →
    kernel[ph.pOffset.toNat + i]? = some (after (ph.pVa.toNat + i))
  cleared : ∀ i, ph.pFilesz.toNat ≤ i → i < ph.pMemsz.toNat → after (ph.pVa.toNat + i) = 0
  kept : ∀ x, x < ph.pVa.toNat / 512 * 512 ∨
    max (ph.pVa.toNat + ph.pMemsz.toNat)
      ((ph.pVa.toNat + ph.pFilesz.toNat + 511) / 512 * 512) ≤ x → after x = before x

/-- The boot loader puts every byte of a segment where its header wants it. -/
theorem bootReadseg_loads {bootSector kernel image : List UInt8}
    {replies : List WriteReply}
    (made : mkbootdisk bootSector [.file kernel] replies = .ok image)
    {disk : Nat → UInt8} (inserted : Inserted image disk) {ph : ElfProgram}
    (shorter : ph.pFilesz.toNat ≤ ph.pMemsz.toNat)
    (congruent : ph.pVa.toNat % 512 = ph.pOffset.toNat % 512)
    (inFile : ph.pOffset.toNat + ph.pFilesz.toNat ≤ kernel.length)
    (sectors : (ph.pOffset.toNat + ph.pFilesz.toNat + 511) / 512 < 2 ^ 28)
    (memEnd : ph.pVa.toNat + ph.pMemsz.toNat < 2 ^ 64)
    (fileEnd : (ph.pVa.toNat + ph.pFilesz.toNat + 511) / 512 * 512 < 2 ^ 64)
    (memory : Memory) :
    ∃ after, bootReadseg disk memory ph.pVa ((ph.pOffset / 512#64 + 1#64).setWidth 32)
        ph.pFilesz ph.pMemsz = .ok after ∧ SegmentRead kernel ph memory after := by
  have start : ((ph.pOffset / 512#64 + 1#64).setWidth 32).toNat =
      ph.pOffset.toNat / 512 + 1 := by
    have divisor : (512#64).toNat = 512 := rfl
    have one : (1#64).toNat = 1 := rfl
    rw [BitVec.toNat_setWidth, BitVec.toNat_add, BitVec.toNat_udiv, divisor, one]
    omega
  refine ⟨_, bootReadseg_ok disk memory shorter memEnd fileEnd (by omega), ?_, ?_, ?_⟩
  · intro i inside
    have notCleared : ¬ (ph.pVa.toNat + ph.pFilesz.toNat ≤ ph.pVa.toNat + i ∧
        ph.pVa.toNat + i < ph.pVa.toNat + ph.pFilesz.toNat +
          (ph.pMemsz.toNat - ph.pFilesz.toNat)) := by omega
    have copied : ph.pVa.toNat / 512 * 512 ≤ ph.pVa.toNat + i ∧
        ph.pVa.toNat + i < ph.pVa.toNat / 512 * 512 +
          512 * ((ph.pVa.toNat % 512 + ph.pFilesz.toNat + 511) / 512) := by omega
    -- both the pointer and the offset were rounded down by the same amount
    have place : 512 * (ph.pOffset.toNat / 512 + 1) +
        (ph.pVa.toNat + i - ph.pVa.toNat / 512 * 512) =
        512 + (ph.pOffset.toNat + i) := by omega
    have inKernel : ph.pOffset.toNat + i < kernel.length := by omega
    have byte := mkbootdisk_byte made inKernel
    rw [List.getElem?_eq_getElem inKernel] at byte
    rw [fill, if_neg notCleared, blit, if_pos copied, start, place,
      inserted _ _ byte, List.getElem?_eq_getElem inKernel]
  · intro i lower upper
    rw [fill, if_pos (by omega)]
  · intro x outside
    rw [fill, if_neg (by omega), blit, if_neg (by omega)]

/-! ## A disk for every kernel -/

/-- With the right replies a write completes and leaves the later ones. -/
theorem diskwrite_completes (data output : List UInt8) (later : List WriteReply) :
    ∃ replies, diskwrite ⟨output, replies ++ later⟩ data = .ok ⟨output ++ data, later⟩ := by
  cases data with
  | nil => exact ⟨[], by simp [diskwrite, diskwriteLoop]⟩
  | cons byte more =>
      refine ⟨[.wrote (more.length + 1)], ?_⟩
      simp [diskwrite, diskwriteLoop]

theorem writeZeroSectors_completes (count : Nat) (output : List UInt8)
    (later : List WriteReply) :
    ∃ replies written, writeZeroSectors count ⟨output, replies ++ later⟩ =
      .ok ⟨written, later⟩ := by
  induction count generalizing output with
  | zero => exact ⟨[], output, rfl⟩
  | succ count ih =>
      obtain ⟨rest, written, run⟩ := ih (output ++ zerobuf)
      obtain ⟨first, wrote⟩ := diskwrite_completes zerobuf output (rest ++ later)
      refine ⟨first ++ rest, written, ?_⟩
      rw [writeZeroSectors, List.append_assoc, wrote, ok_bind]
      exact run

theorem copyFile_completes {fuel : Nat} (pos : Nat) {contents : List UInt8}
    (enough : contents.length ≤ fuel) (output : List UInt8) (later : List WriteReply) :
    ∃ replies, copyFile fuel pos contents ⟨output, replies ++ later⟩ =
      .ok (pos + contents.length, ⟨output ++ contents, later⟩) := by
  induction fuel generalizing pos contents output with
  | zero =>
      have empty : contents = [] := List.eq_nil_of_length_eq_zero (by omega)
      subst empty
      exact ⟨[], by simp [copyFile]⟩
  | succ fuel ih =>
      by_cases more : 0 < (contents.take 4096).length
      · have shorter : (contents.drop 4096).length ≤ fuel := by
          rw [List.length_take] at more
          rw [List.length_drop]
          omega
        have total : pos + (contents.take 4096).length + (contents.drop 4096).length =
            pos + contents.length := by
          rw [List.length_take, List.length_drop]
          omega
        obtain ⟨rest, run⟩ := ih (pos + (contents.take 4096).length) shorter
          (output ++ contents.take 4096)
        obtain ⟨first, wrote⟩ := diskwrite_completes (contents.take 4096) output
          (rest ++ later)
        refine ⟨first ++ rest, ?_⟩
        unfold copyFile
        simp only
        rw [if_pos more, List.append_assoc, wrote, ok_bind, run, total, List.append_assoc,
          List.take_append_drop]
      · have empty : contents = [] := by
          rw [List.length_take] at more
          exact List.eq_nil_of_length_eq_zero (by omega)
        subst empty
        exact ⟨[], by simp [copyFile]⟩

theorem writeArgument_completes (contents : List UInt8) (nsectors : Nat)
    (output : List UInt8) : ∃ reached written, ∀ later, ∃ replies,
      writeArgument (.file contents) nsectors ⟨output, replies ++ later⟩ =
        .ok (reached, ⟨written, later⟩) := by
  by_cases partly : contents.length % 512 ≠ 0
  · refine ⟨nsectors + (contents.length + (512 - contents.length % 512)) / 512,
      output ++ contents ++ zerobuf.take (512 - contents.length % 512), ?_⟩
    intro later
    obtain ⟨rest, padded⟩ := diskwrite_completes
      (zerobuf.take (512 - contents.length % 512)) (output ++ contents) later
    obtain ⟨first, copied⟩ := copyFile_completes 0 (Nat.le_refl contents.length) output
      (rest ++ later)
    refine ⟨first ++ rest, ?_⟩
    rw [Nat.zero_add] at copied
    simp only [writeArgument, List.append_assoc, copied, ok_bind, if_pos partly]
    rw [padded, ok_bind, List.append_assoc]
  · refine ⟨nsectors + contents.length / 512, output ++ contents, ?_⟩
    intro later
    obtain ⟨first, copied⟩ := copyFile_completes 0 (Nat.le_refl contents.length) output
      later
    refine ⟨first, ?_⟩
    rw [Nat.zero_add] at copied
    simp only [writeArgument, copied, ok_bind, if_neg partly]

/-- When all writes go through, every boot sector that fits makes an image. -/
theorem mkbootdisk_completes {bootSector : List UInt8} (fits : bootSector.length ≤ 510)
    (kernel : List UInt8) : ∃ replies image,
      mkbootdisk bootSector [.file kernel] replies = .ok image := by
  have whole : bootSector.take 4096 = bootSector := List.take_of_length_le (by omega)
  have small : ¬ bootSector.length > 510 := by omega
  obtain ⟨reached, written, copies⟩ := writeArgument_completes kernel 1
    ([] ++ (bootSector ++ List.replicate (510 - bootSector.length) 0 ++ [0x55, 0xAA]))
  obtain ⟨zeros, image, filled⟩ := writeZeroSectors_completes (1024 - reached) written []
  obtain ⟨files, copied⟩ := copies (zeros ++ [])
  obtain ⟨boots, booted⟩ := diskwrite_completes
    (bootSector ++ List.replicate (510 - bootSector.length) 0 ++ [0x55, 0xAA]) []
    (files ++ (zeros ++ []))
  refine ⟨boots ++ (files ++ (zeros ++ [])), image, ?_⟩
  unfold mkbootdisk writeBootSector
  simp only [whole, if_neg small]
  rw [booted, ok_bind, writeArguments, copied, ok_bind]
  simp only [writeArguments, ok_bind]
  rw [filled, ok_bind]

def middleSegment : ElfProgram := ⟨elfPtypeLoad, 600#64, 0x40058#64, 100#64, 200#64⟩

theorem bootReadseg_loads_sample : ∃ replies image after,
    mkbootdisk [] [.file (List.replicate 1000 7)] replies = .ok image ∧
    bootReadseg (fun i => image.getD i 0) (fun _ => 1) middleSegment.pVa
      ((middleSegment.pOffset / 512#64 + 1#64).setWidth 32) middleSegment.pFilesz
      middleSegment.pMemsz = .ok after ∧
    SegmentRead (List.replicate 1000 7) middleSegment (fun _ => 1) after := by
  have fits : ([] : List UInt8).length ≤ 510 := by decide
  obtain ⟨replies, image, made⟩ := mkbootdisk_completes fits (List.replicate 1000 7)
  have inserted : Inserted image fun i => image.getD i 0 := by
    intro i byte here
    simp [here]
  have inFile : middleSegment.pOffset.toNat + middleSegment.pFilesz.toNat ≤
      (List.replicate 1000 (7 : UInt8)).length := by
    rw [List.length_replicate]
    decide
  obtain ⟨after, run, read⟩ := bootReadseg_loads made inserted (by decide) (by decide)
    inFile (by decide) (by decide) (by decide) fun _ => 1
  exact ⟨replies, image, after, made, run, read⟩

end OsLabs.Weensy
