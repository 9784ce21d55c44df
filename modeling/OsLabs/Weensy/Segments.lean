import OsLabs.Weensy.Machine

/-!
# Segment descriptors of k-hardware.c

`set_sys_segment` spreads base and limit over two words.  It shifts bits 16 to 19 of the
limit by 48 where the descriptor has them at bit 48, so that they are gone.
-/

set_option autoImplicit false

namespace OsLabs.Weensy

/-! ## The bits of x86-64.h -/

def x86segS : BitVec 64 := 1#64 <<< 44
def x86segP : BitVec 64 := 1#64 <<< 47
def x86segL : BitVec 64 := 1#64 <<< 53
def x86segW : BitVec 64 := 0x2#64 <<< 40
def x86segX : BitVec 64 := 0x8#64 <<< 40
def x86segTss : BitVec 64 := 0x9#64 <<< 40

/-! ## The descriptors -/

/-- `dpl` is an `int`, which the cast extends. -/
def setAppSegment (type : BitVec 64) (dpl : BitVec 32) : BitVec 64 :=
  type ||| x86segS ||| (dpl.signExtend 64 <<< 45) ||| x86segP

/-- `segment[0]` and `segment[1]`. -/
def setSysSegment (type : BitVec 64) (dpl : BitVec 32) (addr : UIntPtr) (size : BitVec 64) :
    BitVec 64 × BitVec 64 :=
  (((addr &&& 0x0000000000FFFFFF#64) <<< 16)
      ||| ((addr &&& 0x00000000FF000000#64) <<< 32)
      ||| ((size - 1#64) &&& 0x0FFFF#64)
      ||| (((size - 1#64) &&& 0xF0000#64) <<< 48)
      ||| type
      ||| (dpl.signExtend 64 <<< 45)
      ||| x86segP,
    addr >>> 32)

/-- `sizeof(kernel_task_descriptor)`. -/
def taskstateSize : BitVec 64 := 96#64

/-- The array `segments` after `segments_init`. -/
def segmentsInit (kernelTaskDescriptor : UIntPtr) : List (BitVec 64) :=
  let tss := setSysSegment x86segTss 0#32 kernelTaskDescriptor taskstateSize
  [0#64, setAppSegment (x86segX ||| x86segL) 0#32, setAppSegment (x86segX ||| x86segL) 3#32,
    setAppSegment x86segW 0#32, setAppSegment x86segW 3#32, tss.1, tss.2]

@[ext]
structure SystemDescriptor where
  base : BitVec 64
  limit : BitVec 20
  type : BitVec 4
  dpl : BitVec 2
  present : Bool
  deriving DecidableEq, Repr

def decodeSystem (segment : BitVec 64 × BitVec 64) : SystemDescriptor where
  base := segment.2.extractLsb' 0 32 ++
    (segment.1.extractLsb' 56 8 ++ segment.1.extractLsb' 16 24)
  limit := segment.1.extractLsb' 48 4 ++ segment.1.extractLsb' 0 16
  type := segment.1.extractLsb' 40 4
  dpl := segment.1.extractLsb' 45 2
  present := segment.1.getLsbD 47

/-! ## What is in which bit -/

section Bits

variable (type : BitVec 4) (dpl : BitVec 2) (addr : UIntPtr) (size : BitVec 64)

/-- The descriptor of a system type, which is already in its place. -/
def sysSegment : BitVec 64 × BitVec 64 :=
  setSysSegment (type.setWidth 64 <<< 40) (dpl.setWidth 32) addr size

theorem signExtend_dpl (dpl : BitVec 2) :
    (dpl.setWidth 32).signExtend 64 = dpl.setWidth 64 := by
  revert dpl
  decide

/-- No bit of the first word has two sources; bits 48 to 51 have none. -/
theorem sysSegment_bit {i : Nat} (inside : i < 64) :
    (sysSegment type dpl addr size).1.getLsbD i =
      if i < 16 then (size - 1#64).getLsbD i
      else if i < 40 then addr.getLsbD (i - 16)
      else if i < 44 then type.getLsbD (i - 40)
      else if i < 45 then false
      else if i < 47 then dpl.getLsbD (i - 45)
      else if i < 48 then true
      else if i < 56 then false
      else addr.getLsbD (i - 32) := by
  simp only [sysSegment, setSysSegment, x86segP, signExtend_dpl]
  generalize size - 1#64 = last
  interval_cases i <;> simp

theorem decode_base : (decodeSystem (sysSegment type dpl addr size)).base = addr := by
  apply BitVec.eq_of_getLsbD_eq
  intro i inside
  simp only [decodeSystem, BitVec.getLsbD_append, BitVec.getLsbD_extractLsb']
  by_cases low : i < 24
  · rw [if_pos (by omega), if_pos low, sysSegment_bit _ _ _ _ (by omega), if_neg (by omega),
      if_pos (by omega), Nat.add_sub_cancel_left]
    simp [low]
  · by_cases middle : i < 32
    · rw [if_pos (by omega), if_neg low, sysSegment_bit _ _ _ _ (by omega)]
      have place : 56 + (i - 24) - 32 = i := by omega
      rw [if_neg (by omega), if_neg (by omega), if_neg (by omega), if_neg (by omega),
        if_neg (by omega), if_neg (by omega), if_neg (by omega), place]
      simp
      omega
    · have place : 32 + (i - 32) = i := by omega
      rw [if_neg (by omega)]
      simp [sysSegment, setSysSegment, place]
      omega

theorem decode_limit : (decodeSystem (sysSegment type dpl addr size)).limit =
    ((size - 1#64).extractLsb' 0 16).setWidth 20 := by
  apply BitVec.eq_of_getLsbD_eq
  intro i inside
  simp only [decodeSystem, BitVec.getLsbD_append, BitVec.getLsbD_extractLsb',
    BitVec.getLsbD_setWidth]
  by_cases low : i < 16
  · rw [if_pos low, sysSegment_bit _ _ _ _ (by omega), if_pos (by omega)]
    simp [inside]
  · rw [if_neg low, sysSegment_bit _ _ _ _ (by omega), if_neg (by omega), if_neg (by omega),
      if_neg (by omega), if_neg (by omega), if_neg (by omega), if_neg (by omega),
      if_pos (by omega)]
    simp [low]

theorem decode_type : (decodeSystem (sysSegment type dpl addr size)).type = type := by
  apply BitVec.eq_of_getLsbD_eq
  intro i inside
  simp only [decodeSystem, BitVec.getLsbD_extractLsb']
  rw [sysSegment_bit _ _ _ _ (by omega), if_neg (by omega), if_neg (by omega),
    if_pos (by omega), Nat.add_sub_cancel_left]
  simp [inside]

theorem decode_dpl : (decodeSystem (sysSegment type dpl addr size)).dpl = dpl := by
  apply BitVec.eq_of_getLsbD_eq
  intro i inside
  simp only [decodeSystem, BitVec.getLsbD_extractLsb']
  rw [sysSegment_bit _ _ _ _ (by omega), if_neg (by omega), if_neg (by omega),
    if_neg (by omega), if_neg (by omega), if_pos (by omega), Nat.add_sub_cancel_left]
  simp [inside]

theorem decode_present :
    (decodeSystem (sysSegment type dpl addr size)).present = true :=
  sysSegment_bit type dpl addr size (by decide : 47 < 64)

theorem decodeSystem_sysSegment : decodeSystem (sysSegment type dpl addr size) =
    ⟨addr, ((size - 1#64).extractLsb' 0 16).setWidth 20, type, dpl, true⟩ :=
  SystemDescriptor.ext (decode_base ..) (decode_limit ..) (decode_type ..) (decode_dpl ..)
    (decode_present ..)

def Lossless : Prop := decodeSystem (sysSegment type dpl addr size) =
  ⟨addr, BitVec.ofNat 20 (size.toNat - 1), type, dpl, true⟩

instance : Decidable (Lossless type dpl addr size) :=
  inferInstanceAs (Decidable (_ = _))

theorem lossless_iff_limit :
    Lossless type dpl addr size ↔ (size - 1#64).toNat % 2 ^ 16 = (size.toNat - 1) % 2 ^ 20 := by
  rw [Lossless, decodeSystem_sysSegment, SystemDescriptor.ext_iff]
  simp only [true_and, and_true]
  rw [← BitVec.toNat_inj]
  simp only [BitVec.toNat_setWidth, BitVec.extractLsb'_toNat, BitVec.toNat_ofNat,
    Nat.shiftRight_zero]
  omega

/-- The limit survives when it has 16 bits. -/
theorem setSysSegment_lossless_iff (type : BitVec 4) (dpl : BitVec 2) (addr : UIntPtr)
    {size : BitVec 64} (lower : 1 ≤ size.toNat) (upper : size.toNat ≤ 2 ^ 20) :
    Lossless type dpl addr size ↔ size.toNat ≤ 2 ^ 16 := by
  have last : (size - 1#64).toNat = size.toNat - 1 := by
    have bound := size.isLt
    rw [BitVec.toNat_sub, BitVec.toNat_ofNat]
    omega
  rw [lossless_iff_limit, last]
  omega

theorem setSysSegment_lossless_iff_sample : Lossless 0x9#4 3#2 0xFFFFFFFF80104060#64 0x10000#64 :=
  (setSysSegment_lossless_iff 0x9#4 3#2 0xFFFFFFFF80104060#64 (by decide) (by decide)).mpr
    (by decide)

/-- A segment of 65537 bytes is encoded as one of a single byte. -/
theorem setSysSegment_truncates :
    (decodeSystem (sysSegment 0x9#4 0#2 0x60000#64 0x10001#64)).limit = 0#20 ∧
    ¬ ∀ (type : BitVec 4) (dpl : BitVec 2) (addr : UIntPtr) (size : BitVec 64),
      1 ≤ size.toNat → size.toNat ≤ 2 ^ 20 → Lossless type dpl addr size := by
  constructor
  · decide
  · intro lossless
    have here := lossless 0x9#4 0#2 0x60000#64 0x10001#64 (by decide) (by decide)
    revert here
    decide

end Bits

theorem segmentsInit_tss (kernelTaskDescriptor : UIntPtr) :
    ∃ low high, (segmentsInit kernelTaskDescriptor)[5]? = some low ∧
      (segmentsInit kernelTaskDescriptor)[6]? = some high ∧
      decodeSystem (low, high) = ⟨kernelTaskDescriptor, 95#20, 0x9#4, 0#2, true⟩ :=
  ⟨_, _, rfl, rfl, decodeSystem_sysSegment 0x9#4 0#2 kernelTaskDescriptor taskstateSize⟩

end OsLabs.Weensy
