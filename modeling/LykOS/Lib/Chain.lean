import Mathlib.Data.List.Basic

/-!
# Null-terminated chains

A singly linked list kept in memory: `Linked next a l` says that following `next` from the address
`a` visits `l` and then stops at address 0. `collect` follows a chain for a bounded number of steps.
-/

namespace Chain

inductive Linked (next : ℕ → ℕ) : ℕ → List ℕ → Prop
  | nil : Linked next 0 []
  | cons {a : ℕ} {l : List ℕ} : a ≠ 0 → Linked next (next a) l → Linked next a (a :: l)

/-- The first `n` cells of the chain from `a`. -/
def collect (next : ℕ → ℕ) : ℕ → ℕ → List ℕ
  | 0, _ => []
  | n + 1, a => if a = 0 then [] else a :: collect next n (next a)

namespace Linked

variable {next next' : ℕ → ℕ} {a : ℕ} {l : List ℕ}

theorem frame (h : Linked next a l) (hw : ∀ x ∈ l, next' x = next x) : Linked next' a l := by
  induction h with
  | nil => exact .nil
  | cons ha _ ih =>
    refine .cons ha ?_
    rw [hw _ List.mem_cons_self]
    exact ih fun x hx => hw x (List.mem_cons_of_mem _ hx)

theorem eq_nil_iff (h : Linked next a l) : l = [] ↔ a = 0 := by
  cases h with
  | nil => simp
  | cons ha _ => simp [ha]

theorem of_ne_zero (h : Linked next a l) (ha : a ≠ 0) :
    ∃ t, l = a :: t ∧ Linked next (next a) t := by
  cases h with
  | nil => exact absurd rfl ha
  | cons _ ht => exact ⟨_, rfl, ht⟩

theorem collect_eq (h : Linked next a l) {n : ℕ} (hn : l.length ≤ n) : collect next n a = l := by
  induction h generalizing n with
  | nil => cases n <;> rfl
  | cons ha _ ih =>
    cases n with
    | zero => cases hn
    | succ n => rw [collect, if_neg ha, ih (Nat.le_of_succ_le_succ hn)]

end Linked

end Chain
