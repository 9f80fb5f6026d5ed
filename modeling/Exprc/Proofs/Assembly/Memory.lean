/-
Memory as bytes, and the numbers that bytes hold: the byte at the lowest address is the least one.
-/
import Mathlib

namespace Exprc.Assembly

/-- The word that a register holds. -/
abbrev Word := BitVec 64

/-- The bytes of memory by their addresses. -/
abbrev Memory := Nat → BitVec 8

namespace Memory

/-- The number that some bytes from an address on hold. -/
def load (m : Memory) (address : Nat) : (bytes : Nat) → Nat
  | 0 => 0
  | bytes + 1 => (m address).toNat + 256 * m.load (address + 1) bytes

/-- Puts a number into some bytes from an address on. What does not fit is cut off. -/
def store (m : Memory) (address bytes number : Nat) : Memory := fun a =>
  if address ≤ a ∧ a < address + bytes then .ofNat 8 (number / 256 ^ (a - address)) else m a

/-- The word at an address. -/
def word (m : Memory) (address : Nat) : Word := .ofNat 64 (m.load address 8)

/-- Puts a word at an address. -/
def setWord (m : Memory) (address : Nat) (w : Word) : Memory := m.store address 8 w.toNat

section

variable {m m' : Memory} {address bytes number a : Nat}

theorem store_outside (h : a < address ∨ address + bytes ≤ a) :
    m.store address bytes number a = m a :=
  if_neg (by omega)

theorem load_congr (h : ∀ a, address ≤ a → a < address + bytes → m a = m' a) :
    m.load address bytes = m'.load address bytes := by
  induction bytes generalizing address with
  | zero => rfl
  | succ bytes ih =>
    rw [load, load, h address (Nat.le_refl _) (by omega),
      ih fun a h₁ h₂ => h a (by omega) (by omega)]

/-- The bytes of a number that was put into memory, from one of them on. -/
theorem load_store_from (offset : Nat) :
    ∀ count, offset + count ≤ bytes →
      (m.store address bytes number).load (address + offset) count =
        number / 256 ^ offset % 256 ^ count
  | 0, _ => by rw [load, Nat.pow_zero, Nat.mod_one]
  | count + 1, h => by
    have hrest := load_store_from (offset + 1) count (by omega)
    rw [← Nat.add_assoc] at hrest
    have hbyte : m.store address bytes number (address + offset) =
        .ofNat 8 (number / 256 ^ offset) := by
      rw [store, if_pos (by omega), Nat.add_sub_cancel_left]
    have hshift : number / 256 ^ (offset + 1) = number / 256 ^ offset / 256 := by
      rw [Nat.pow_succ, Nat.div_div_eq_div_mul]
    rw [load, hrest, hbyte, BitVec.toNat_ofNat, hshift, Nat.pow_succ' (n := count), Nat.mod_mul]

/-- What was put into memory is there. -/
theorem load_store : (m.store address bytes number).load address bytes = number % 256 ^ bytes := by
  have h := @load_store_from m address bytes number 0 bytes (by omega)
  rwa [Nat.add_zero, Nat.pow_zero, Nat.div_one] at h

theorem word_congr (h : ∀ a, address ≤ a → a < address + 8 → m a = m' a) :
    m.word address = m'.word address := by
  rw [word, word, load_congr h]

@[simp] theorem word_setWord (w : Word) : (m.setWord address w).word address = w := by
  rw [word, setWord, load_store]
  apply BitVec.eq_of_toNat_eq
  rw [BitVec.toNat_ofNat, Nat.mod_mod_of_dvd _ (by decide), Nat.mod_eq_of_lt w.isLt]

theorem setWord_outside {w : Word} (h : a < address ∨ address + 8 ≤ a) :
    m.setWord address w a = m a :=
  store_outside h

theorem word_setWord_of_disjoint {other : Nat} {w : Word}
    (h : other + 8 ≤ address ∨ address + 8 ≤ other) :
    (m.setWord address w).word other = m.word other :=
  word_congr fun _ _ _ => setWord_outside (by omega)

end

end Memory

end Exprc.Assembly
