import Mathlib.Algebra.Ring.Nat
import Mathlib.Logic.Function.Basic

/-!
# Copies between ranges that may overlap

A copy goes from one range of a memory to another, one element in each round. Round `i` reads what the
rounds before it have left at `src + i` (`copyUp_at`), so the copy is right exactly if it starts at or
before its source, or what it runs into repeats (`copyUp_right_iff`). A copy that goes down is right if it
starts at or behind its source (`copyDown_at`).
-/

namespace Overlap

open Function

variable {α : Type*}

/-- The memory after `n` rounds of a copy from `src` to `dest`, upwards. -/
def copyUp (mem : ℕ → α) (dest src : ℕ) : ℕ → ℕ → α
  | 0 => mem
  | n + 1 => Function.update (copyUp mem dest src n) (dest + n) (copyUp mem dest src n (src + n))

/-- The memory after a copy of `n` elements from `src` to `dest`, downwards. -/
def copyDown (mem : ℕ → α) (dest src : ℕ) : ℕ → ℕ → α
  | 0 => mem
  | n + 1 => copyDown (Function.update mem (dest + n) (mem (src + n))) dest src n

section

variable {mem : ℕ → α} {dest src n i a : ℕ}

theorem copyUp_of_disjoint (h : a < dest ∨ dest + n ≤ a) : copyUp mem dest src n a = mem a := by
  induction n with
  | zero => rfl
  | succ n ih => rw [copyUp, update_of_ne (by omega), ih (by omega)]

theorem copyUp_at (hi : i < n) : copyUp mem dest src n (dest + i) = copyUp mem dest src i (src + i) := by
  induction n with
  | zero => exact absurd hi (Nat.not_lt_zero i)
  | succ n ih =>
    by_cases hin : i = n
    · rw [copyUp, hin, update_self]
    · rw [copyUp, update_of_ne (by omega), ih (by omega)]

theorem copyUp_succ (mem : ℕ → α) (dest src n : ℕ) :
    copyUp mem dest src (n + 1) = copyUp (update mem dest (mem src)) (dest + 1) (src + 1) n := by
  induction n with
  | zero => rfl
  | succ n ih =>
    rw [copyUp, ih, copyUp, Nat.add_right_comm dest, Nat.add_right_comm src, Nat.add_assoc dest,
      Nat.add_assoc src]

theorem copyUp_succ_read (mem : ℕ → α) (dest src i : ℕ) :
    copyUp (update mem dest (mem src)) (dest + 1) (src + 1) i (src + 1 + i) =
      copyUp mem dest src (i + 1) (src + (i + 1)) := by
  rw [copyUp_succ, Nat.add_assoc, Nat.add_comm 1 i]

theorem copyUp_read (h : dest ≤ src ∨ src + i < dest) : copyUp mem dest src i (src + i) = mem (src + i) :=
  copyUp_of_disjoint (by omega)

theorem copyUp_reread (hlt : src < dest) (hi : dest ≤ src + i) :
    copyUp mem dest src i (src + i) =
      copyUp mem dest src (i - (dest - src)) (src + (i - (dest - src))) := by
  have hat : copyUp mem dest src i (dest + (i - (dest - src))) = _ := copyUp_at (by omega)
  rwa [show dest + (i - (dest - src)) = src + i by omega] at hat

/-- A copy that starts inside its source is right exactly if what it runs into repeats. -/
theorem copyUp_right_iff :
    (∀ i < n, copyUp mem dest src n (dest + i) = mem (src + i)) ↔
      dest ≤ src ∨ ∀ i, dest + i < src + n → mem (dest + i) = mem (src + i) := by
  constructor
  · intro h
    refine (Nat.le_total dest src).imp_right fun hle i hi => ?_
    rcases Nat.eq_or_lt_of_le hle with rfl | hlt
    · rfl
    have hread := h (i + (dest - src)) (by omega)
    rw [copyUp_at (by omega), copyUp_reread hlt (by omega), Nat.add_sub_cancel,
      ← copyUp_at (n := n) (by omega), h i (by omega)] at hread
    rw [hread]
    exact congrArg mem (by omega)
  · intro h i hi
    rw [copyUp_at hi]
    induction i using Nat.strong_induction_on with
    | _ i ih =>
      by_cases hfree : dest ≤ src ∨ src + i < dest
      · exact copyUp_read hfree
      · rcases h with h | h
        · exact absurd (Or.inl h) hfree
        · rw [copyUp_reread (by omega) (by omega), ih _ (by omega) (by omega), ← h _ (by omega)]
          exact congrArg mem (by omega)

theorem copyDown_of_disjoint (h : a < dest ∨ dest + n ≤ a) : copyDown mem dest src n a = mem a := by
  induction n generalizing mem with
  | zero => rfl
  | succ n ih => rw [copyDown, ih (by omega), update_of_ne (by omega)]

/-- The rounds down to `i` have written behind `dest + i`, so behind `src + i`. -/
theorem copyDown_at (hle : src ≤ dest) (hi : i < n) :
    copyDown mem dest src n (dest + i) = mem (src + i) := by
  induction n generalizing mem with
  | zero => exact absurd hi (Nat.not_lt_zero i)
  | succ n ih =>
    rw [copyDown]
    by_cases hin : i = n
    · rw [hin, copyDown_of_disjoint (Or.inr (Nat.le_refl _)), update_self]
    · rw [ih (by omega), update_of_ne (by omega)]

theorem copyUp_self : copyUp mem a a n = mem := by
  induction n with
  | zero => rfl
  | succ n ih => rw [copyUp, ih, update_eq_self]

theorem copyUp_eq_copyDown_iff (hle : src ≤ dest) : copyUp mem dest src n = copyDown mem dest src n ↔
    dest ≤ src ∨ ∀ i, dest + i < src + n → mem (dest + i) = mem (src + i) := by
  rw [← copyUp_right_iff]
  refine ⟨fun h i hi => by rw [h, copyDown_at hle hi], fun h => funext fun a => ?_⟩
  by_cases ha : a < dest ∨ dest + n ≤ a
  · rw [copyUp_of_disjoint ha, copyDown_of_disjoint ha]
  · obtain ⟨i, rfl⟩ := Nat.exists_eq_add_of_le (show dest ≤ a by omega)
    rw [h i (by omega), copyDown_at hle (by omega)]

end

end Overlap
