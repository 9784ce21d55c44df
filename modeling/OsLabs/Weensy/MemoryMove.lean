import OsLabs.Lib.ByteMemory
import OsLabs.Weensy.Machine

/-!
# memmove of lib.c

Pointers are 64-bit words, so that a pointer behind the last byte of the address space is
0.  Both loops overwrite bytes that are still to be read only behind the place they read
from.
-/

set_option autoImplicit false

namespace OsLabs.Weensy

open OsLabs.ByteMemory

/-- `*d = byte`. -/
def storeByte (memory : Memory) (d : UIntPtr) (byte : UInt8) : Memory :=
  Function.update memory d.toNat byte

/-- `while (n-- > 0) { *--d = *--s; }`. -/
def moveDown : Nat → UIntPtr → UIntPtr → Memory → Memory
  | 0, _, _, memory => memory
  | n + 1, d, s, memory =>
      let d := d - 1#64
      let s := s - 1#64
      moveDown n d s (storeByte memory d (memory s.toNat))

/-- `while (n-- > 0) { *d++ = *s++; }`. -/
def moveUp : Nat → UIntPtr → UIntPtr → Memory → Memory
  | 0, _, _, memory => memory
  | n + 1, d, s, memory =>
      moveUp n (d + 1#64) (s + 1#64) (storeByte memory d (memory s.toNat))

def memmove (memory : Memory) (dst src : UIntPtr) (n : BitVec 64) : Memory :=
  if src < dst ∧ dst < src + n then moveDown n.toNat (dst + n) (src + n) memory
  else moveUp n.toNat dst src memory

section Loops

variable {memory : Memory} {dst src : UIntPtr} {n : Nat}

theorem storeByte_eq_blit (source : Nat → UInt8) :
    storeByte memory dst (source 0) = blit memory dst.toNat 1 source := by
  funext x
  simp only [storeByte, blit, Function.update_apply]
  by_cases here : x = dst.toNat
  · rw [if_pos here, if_pos (by omega), show x - dst.toNat = 0 by omega]
  · rw [if_neg here, if_neg (by omega)]

theorem storeByte_apart {x : Nat} (apart : x ≠ dst.toNat) (byte : UInt8) :
    storeByte memory dst byte x = memory x :=
  Function.update_of_ne apart _ _

/-- Upwards, a byte that is still to be read is not below the place written to, or the
ranges do not meet. -/
theorem moveUp_eq_blit (dstEnd : dst.toNat + n ≤ 2 ^ 64) (srcEnd : src.toNat + n ≤ 2 ^ 64)
    (direction : dst.toNat ≤ src.toNat ∨ src.toNat + n ≤ dst.toNat) :
    moveUp n dst src memory =
      blit memory dst.toNat n fun i => memory (src.toNat + i) := by
  induction n generalizing dst src memory with
  | zero => rw [moveUp, blit_zero]
  | succ n ih =>
      cases n with
      | zero => exact storeByte_eq_blit fun i => memory (src.toNat + i)
      | succ n =>
          have nextDst : (dst + 1#64).toNat = dst.toNat + 1 := by
            rw [BitVec.toNat_add, BitVec.toNat_ofNat]
            omega
          have nextSrc : (src + 1#64).toNat = src.toNat + 1 := by
            rw [BitVec.toNat_add, BitVec.toNat_ofNat]
            omega
          have first : storeByte memory dst (memory src.toNat) =
              blit memory dst.toNat 1 fun i => memory (src.toNat + i) :=
            storeByte_eq_blit fun i => memory (src.toNat + i)
          rw [moveUp, ih (by omega) (by omega) (by omega), nextDst, nextSrc, first,
            Nat.add_comm (n + 1) 1]
          apply blit_blit
          · intro i _
            rfl
          · intro i inside
            rw [← first, storeByte_apart (by omega), Nat.add_assoc]

/-- Downwards, a byte that is still to be read is below the place written to. -/
theorem moveDown_eq_blit (dstEnd : dst.toNat + n ≤ 2 ^ 64) (below : src.toNat ≤ dst.toNat) :
    moveDown n (dst + BitVec.ofNat 64 n) (src + BitVec.ofNat 64 n) memory =
      blit memory dst.toNat n fun i => memory (src.toNat + i) := by
  induction n generalizing memory with
  | zero => rw [moveDown, blit_zero]
  | succ n ih =>
      have back : ∀ p : UIntPtr, p + BitVec.ofNat 64 (n + 1) - 1#64 =
          p + BitVec.ofNat 64 n := by
        intro p
        rw [BitVec.ofNat_add, ← BitVec.add_assoc, BitVec.add_sub_cancel]
      have lastDst : (dst + BitVec.ofNat 64 n).toNat = dst.toNat + n := by
        rw [BitVec.toNat_add, BitVec.toNat_ofNat]
        omega
      have lastSrc : (src + BitVec.ofNat 64 n).toNat = src.toNat + n := by
        rw [BitVec.toNat_add, BitVec.toNat_ofNat]
        omega
      rw [moveDown, back, back, lastSrc, ih (by omega)]
      funext x
      simp only [blit]
      by_cases inside : dst.toNat ≤ x ∧ x < dst.toNat + n
      · rw [if_pos inside, if_pos (by omega), storeByte_apart (by omega)]
      · rw [if_neg inside]
        by_cases last : x = dst.toNat + n
        · rw [if_pos (by omega), storeByte, lastDst, last, Function.update_self]
          congr 1
          omega
        · rw [if_neg (by omega), storeByte_apart (by omega)]

end Loops

/-- The bytes of the source as they were before the call, and nothing else. -/
theorem memmove_copies (memory : Memory) (dst src : UIntPtr) (n : BitVec 64)
    (srcEnd : src.toNat + n.toNat ≤ 2 ^ 64) (dstEnd : dst.toNat + n.toNat ≤ 2 ^ 64) :
    (∀ i < n.toNat, memmove memory dst src n (dst.toNat + i) = memory (src.toNat + i)) ∧
    ∀ x, x < dst.toNat ∨ dst.toNat + n.toNat ≤ x → memmove memory dst src n x = memory x := by
  have copied : memmove memory dst src n =
      blit memory dst.toNat n.toNat fun i => memory (src.toNat + i) := by
    have whole : BitVec.ofNat 64 n.toNat = n := BitVec.ofNat_toNat ..
    have sum : (src + n).toNat = (src.toNat + n.toNat) % 2 ^ 64 := BitVec.toNat_add ..
    rw [memmove]
    split
    · next overlaps =>
        obtain ⟨below, inside⟩ := overlaps
        rw [← moveDown_eq_blit dstEnd (Nat.le_of_lt below), whole]
    · next apart =>
        rw [BitVec.lt_def, BitVec.lt_def, sum] at apart
        apply moveUp_eq_blit dstEnd srcEnd
        omega
  constructor
  · intro i inside
    rw [copied, blit, if_pos (by omega), Nat.add_sub_cancel_left]
  · intro x outside
    rw [copied, blit, if_neg (by omega)]

/-- Three bytes moved up by one, over themselves. -/
theorem memmove_copies_sample :
    memmove UInt8.ofNat 0x1001#64 0x1000#64 3#64 0x1003 = 2 ∧
    memmove UInt8.ofNat 0x1001#64 0x1000#64 3#64 0x1004 = 4 := by
  obtain ⟨copied, kept⟩ :=
    memmove_copies UInt8.ofNat 0x1001#64 0x1000#64 3#64 (by decide) (by decide)
  exact ⟨copied 2 (by decide), kept 0x1004 (by decide)⟩

end OsLabs.Weensy
