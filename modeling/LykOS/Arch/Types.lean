import Mathlib.Algebra.Ring.Int.Defs
import Mathlib.Algebra.Ring.Nat

/-!
# Machine words and page constants

`arch/types.h`, `lib/def.h` and `lib/math.h` for x86_64, and the codes of `lib/errno.h` that more than one
part uses. A 64-bit word is a natural number; `u64 n` is what is left of `n` in one.
-/

namespace LykOS

/-- Truncation to 64 bits. -/
def u64 (n : ℕ) : ℕ := n % 2 ^ 64

theorem u64_of_lt {n : ℕ} (h : n < 2 ^ 64) : u64 n = n := Nat.mod_eq_of_lt h

theorem u64_lt (n : ℕ) : u64 n < 2 ^ 64 := Nat.mod_lt _ (Nat.two_pow_pos 64)

def archPageGran : ℕ := 0x1000

theorem mul_archPageGran_injective : Function.Injective (· * archPageGran) :=
  fun _ _ h => Nat.eq_of_mul_eq_mul_right (by decide) h

theorem mul_archPageGran_mod (n : ℕ) : n * archPageGran % archPageGran = 0 := Nat.mul_mod_left _ _

def gib : ℕ := 1024 * 1024 * 1024

def archKernelMinVirt : ℕ := 0xFFFF800000000000

def archKernelMaxVirt : ℕ := 0xFFFFFFFFFFFFFFFF

def archUserMinVirt : ℕ := 0x0000000000000000

def archUserMaxVirt : ℕ := 0x00007FFFFFFFFFFF

def badAddress : ℕ := 0xFFFFFFFFFFFFFFFF

def eok : ℤ := 0

def einval : ℤ := 40

/-- `FLOOR(VALUE, GRAN)`. -/
def floorTo (value gran : ℕ) : ℕ := value / gran * gran

/-- `CEIL(VALUE, GRAN)`, in 64-bit arithmetic. -/
def ceilTo (value gran : ℕ) : ℕ := u64 (value + gran - 1) / gran * gran

end LykOS
