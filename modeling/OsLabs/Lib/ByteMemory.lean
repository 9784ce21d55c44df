import Mathlib.Data.Nat.Basic
import Mathlib.Tactic

/-!
# Byte-addressed memory with little-endian words

A memory is a total function from addresses to bytes.  `loadLE` and `storeLE`
read and write a word of any number of bytes, least significant byte first;
`fill` and `blit` are the two bulk writes.  Every operation has one lemma for
the bytes it writes and one frame lemma for the bytes it leaves alone, and the
word operations are related to each other through these.
-/

set_option autoImplicit false

namespace OsLabs.ByteMemory

abbrev Memory := Nat → UInt8

/-- The word of `width` bytes stored at `address`. -/
def loadLE (memory : Memory) : Nat → Nat → Nat
  | _, 0 => 0
  | address, width + 1 =>
      (memory address).toNat + 256 * loadLE memory (address + 1) width

/-- Store the low `width` bytes of `value` at `address`. -/
def storeLE (memory : Memory) (address width value : Nat) : Memory := fun x =>
  if address ≤ x ∧ x < address + width then
    UInt8.ofNat (value / 256 ^ (x - address))
  else memory x

/-- `size` bytes from `address` on become `byte`. -/
def fill (memory : Memory) (address size : Nat) (byte : UInt8) : Memory := fun x =>
  if address ≤ x ∧ x < address + size then byte else memory x

/-- `size` bytes from `address` on become those of `source`. -/
def blit (memory : Memory) (address size : Nat) (source : Nat → UInt8) : Memory :=
  fun x => if address ≤ x ∧ x < address + size then source (x - address) else memory x

/-- Two memories hold the same bytes on `[address, address + size)`. -/
def AgreeOn (before after : Memory) (address size : Nat) : Prop :=
  ∀ x, address ≤ x → x < address + size → after x = before x

/-! ## Loads depend only on the bytes they read -/

theorem loadLE_lt (memory : Memory) (address width : Nat) :
    loadLE memory address width < 256 ^ width := by
  induction width generalizing address with
  | zero => simp [loadLE]
  | succ width ih =>
      have head := (memory address).toNat_lt
      have tail := ih (address + 1)
      simp only [loadLE, pow_succ]
      omega

theorem loadLE_congr {before after : Memory} {address width : Nat}
    (same : AgreeOn before after address width) :
    loadLE after address width = loadLE before address width := by
  induction width generalizing address with
  | zero => rfl
  | succ width ih =>
      have head : after address = before address :=
        same address (Nat.le_refl _) (by omega)
      have tail : AgreeOn before after (address + 1) width := by
        intro x lower upper
        exact same x (by omega) (by omega)
      simp only [loadLE, head, ih tail]

theorem loadLE_zero {memory : Memory} {address width : Nat}
    (zero : AgreeOn (fun _ => 0) memory address width) : loadLE memory address width = 0 := by
  induction width generalizing address with
  | zero => rfl
  | succ width ih =>
      have head : memory address = 0 := zero address (Nat.le_refl _) (by omega)
      have tail : AgreeOn (fun _ => 0) memory (address + 1) width := by
        intro x lower upper
        exact zero x (by omega) (by omega)
      simp only [loadLE, head, ih tail]
      rfl

theorem loadLE_copy {before after : Memory} {source target width : Nat}
    (same : ∀ i, i < width → after (target + i) = before (source + i)) :
    loadLE after target width = loadLE before source width := by
  induction width generalizing source target with
  | zero => rfl
  | succ width ih =>
      have head : after target = before source := same 0 (by omega)
      have tail : ∀ i, i < width → after (target + 1 + i) = before (source + 1 + i) := by
        intro i inside
        rw [Nat.add_assoc, Nat.add_assoc, Nat.add_comm 1 i]
        exact same (i + 1) (by omega)
      simp only [loadLE, head, ih tail]

theorem AgreeOn.mono {before after : Memory} {address size inner width : Nat}
    (same : AgreeOn before after address size)
    (lower : address ≤ inner) (upper : inner + width ≤ address + size) :
    AgreeOn before after inner width := by
  intro x xLower xUpper
  exact same x (by omega) (by omega)

theorem AgreeOn.trans {first second third : Memory} {address size : Nat}
    (left : AgreeOn first second address size)
    (right : AgreeOn second third address size) :
    AgreeOn first third address size := by
  intro x lower upper
  rw [right x lower upper, left x lower upper]

/-! ## Frames -/

theorem storeLE_outside {memory : Memory} {address width value x : Nat}
    (outside : x < address ∨ address + width ≤ x) :
    storeLE memory address width value x = memory x := by
  have notIn : ¬ (address ≤ x ∧ x < address + width) := by omega
  simp only [storeLE, if_neg notIn]

theorem storeLE_frame (memory : Memory) (address width value inner size : Nat)
    (apart : inner + size ≤ address ∨ address + width ≤ inner) :
    AgreeOn memory (storeLE memory address width value) inner size := by
  intro x lower upper
  exact storeLE_outside (by omega)

theorem fill_frame (memory : Memory) (address width : Nat) (byte : UInt8)
    (inner size : Nat)
    (apart : inner + size ≤ address ∨ address + width ≤ inner) :
    AgreeOn memory (fill memory address width byte) inner size := by
  intro x lower upper
  have outside : ¬ (address ≤ x ∧ x < address + width) := by omega
  simp only [fill, if_neg outside]

theorem blit_frame (memory : Memory) (address width : Nat)
    (source : Nat → UInt8) (inner size : Nat)
    (apart : inner + size ≤ address ∨ address + width ≤ inner) :
    AgreeOn memory (blit memory address width source) inner size := by
  intro x lower upper
  have outside : ¬ (address ≤ x ∧ x < address + width) := by omega
  simp only [blit, if_neg outside]

/-! ## Bulk writes next to each other -/

theorem blit_zero (memory : Memory) (address : Nat) (source : Nat → UInt8) :
    blit memory address 0 source = memory := by
  funext x
  rw [blit, if_neg (by omega)]

theorem blit_blit (memory : Memory) (address first second : Nat)
    (source left right : Nat → UInt8)
    (start : ∀ i, i < first → left i = source i)
    (rest : ∀ i, i < second → right i = source (first + i)) :
    blit (blit memory address first left) (address + first) second right =
      blit memory address (first + second) source := by
  funext x
  simp only [blit]
  by_cases late : address + first ≤ x ∧ x < address + first + second
  · have inside : address ≤ x ∧ x < address + (first + second) := by omega
    have place : first + (x - (address + first)) = x - address := by omega
    rw [if_pos late, if_pos inside, rest _ (by omega), place]
  · rw [if_neg late]
    by_cases early : address ≤ x ∧ x < address + first
    · have inside : address ≤ x ∧ x < address + (first + second) := by omega
      rw [if_pos early, if_pos inside, start _ (by omega)]
    · have outside : ¬ (address ≤ x ∧ x < address + (first + second)) := by omega
      rw [if_neg early, if_neg outside]

/-! ## Loads after stores -/

theorem loadLE_storeLE_aux (memory : Memory) (base width value done : Nat)
    (count : Nat) (whole : done + count = width) :
    loadLE (storeLE memory base width value) (base + done) count =
      value / 256 ^ done % 256 ^ count := by
  induction count generalizing done with
  | zero => simp [loadLE, Nat.mod_one]
  | succ count ih =>
      have inside : done < width := by omega
      have tail := ih (done + 1) (by omega)
      have quotient : value / 256 ^ (done + 1) = value / 256 ^ done / 256 := by
        rw [pow_succ, Nat.div_div_eq_div_mul]
      have byte : ((storeLE memory base width value) (base + done)).toNat =
          value / 256 ^ done % 256 := by
        simp [storeLE, inside]
      simp only [loadLE, byte, Nat.add_assoc, tail, quotient]
      rw [pow_succ, Nat.mul_comm (256 ^ count) 256, Nat.mod_mul]

theorem loadLE_storeLE (memory : Memory) (address width value : Nat) :
    loadLE (storeLE memory address width value) address width =
      value % 256 ^ width := by
  have spec := loadLE_storeLE_aux memory address width value 0 width (by omega)
  simpa using spec

theorem loadLE_storeLE_apart (memory : Memory)
    (address width value inner size : Nat)
    (apart : inner + size ≤ address ∨ address + width ≤ inner) :
    loadLE (storeLE memory address width value) inner size =
      loadLE memory inner size :=
  loadLE_congr (storeLE_frame memory address width value inner size apart)

theorem loadLE_fill_apart (memory : Memory) (address width : Nat)
    (byte : UInt8) (inner size : Nat)
    (apart : inner + size ≤ address ∨ address + width ≤ inner) :
    loadLE (fill memory address width byte) inner size =
      loadLE memory inner size :=
  loadLE_congr (fill_frame memory address width byte inner size apart)

theorem loadLE_fill_zero (memory : Memory) (address width inner size : Nat)
    (lower : address ≤ inner) (upper : inner + size ≤ address + width) :
    loadLE (fill memory address width 0) inner size = 0 := by
  apply loadLE_zero
  intro x above below
  rw [fill, if_pos (by omega)]

theorem storeLE_loadLE (memory : Memory) (address width value : Nat)
    (present : loadLE memory address width = value) :
    storeLE memory address width value = memory := by
  subst present
  funext x
  by_cases inside : address ≤ x ∧ x < address + width
  · simp only [storeLE, if_pos inside]
    obtain ⟨lower, upper⟩ := inside
    obtain ⟨offset, rfl⟩ := Nat.exists_eq_add_of_le lower
    have offsetLt : offset < width := by omega
    clear lower upper
    rw [Nat.add_sub_cancel_left]
    induction width generalizing address offset with
    | zero => omega
    | succ width ih =>
        cases offset with
        | zero =>
            simp only [loadLE, pow_zero, Nat.div_one, Nat.add_zero]
            apply UInt8.toNat_inj.mp
            have bound := (memory address).toNat_lt
            simp only [UInt8.toNat_ofNat']
            omega
        | succ offset =>
            have tail := ih (address + 1) offset (by omega)
            have bound := (memory address).toNat_lt
            have strip : ((memory address).toNat +
                256 * loadLE memory (address + 1) width) / 256 ^ (offset + 1) =
                loadLE memory (address + 1) width / 256 ^ offset := by
              rw [pow_succ, Nat.mul_comm (256 ^ offset) 256,
                ← Nat.div_div_eq_div_mul]
              congr 1
              omega
            simp only [loadLE, strip]
            rw [tail]
            congr 1
            omega
  · simp only [storeLE, if_neg inside]

end OsLabs.ByteMemory
