import OsLabs.Lib.ByteMemory

/-!
# The on-disk format of fs_types.h

The structures are packed, so a field is a number of bytes at an offset.
-/

set_option autoImplicit false

namespace OsLabs.Fs

open OsLabs.ByteMemory

abbrev blkSize : Nat := 4096
abbrev blkBitSize : Nat := blkSize * 8
abbrev nDirect : Nat := 10
abbrev nIndirect : Nat := blkSize / 4
abbrev nDouble : Nat := nIndirect * nIndirect
abbrev nameMax : Nat := 124

def fsMagic : Nat := 0xC5202F19

/-- `sizeof(struct dirent)`. -/
abbrev direntSize : Nat := 128

/-! ## Offsets -/

def iOwner : Nat := 0
def iGroup : Nat := 4
def iMode : Nat := 8
def iNlink : Nat := 20
def iAtime : Nat := 22
def iCtime : Nat := 30
def iMtime : Nat := 38
def iSize : Nat := 46
def iDirect : Nat := 50
def iIndirect : Nat := 90
def iDouble : Nat := 94

def sMagic : Nat := 0
def sNblocks : Nat := 4
def sRoot : Nat := 8

def dInum : Nat := 0
def dName : Nat := 4

/-- `ROUNDUP(a, BLKSIZE)`, in 32 bits. -/
def roundUp (a : Nat) : Nat :=
  let a := (a % 2 ^ 32 + blkSize - 1) % 2 ^ 32
  a - a % blkSize

theorem roundUp_eq {a : Nat} (small : a + blkSize ≤ 2 ^ 32) :
    roundUp a = (a + 4095) / 4096 * 4096 := by
  simp only [roundUp, blkSize] at small ⊢
  omega

end OsLabs.Fs
