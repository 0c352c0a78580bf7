import Mathlib.Data.List.Perm.Basic
import Mathlib.Data.List.Range

/-!
# Arrays of lists over one pool of nodes

An intrusive list is seen as the sequence of its nodes, and an array of `n` of them as a function
`ℕ → List α` read below `n`. A node carries its own links, so it may be appended only while it is in no list
of the array, and removed only from the list it is in: outside these conditions the operations have no
result.
-/

namespace Pool

open Function List

variable {α : Type*} [DecidableEq α]

/-- Appends `x` to list `i`; no result if `x` is already linked. -/
def append (n : ℕ) (L : ℕ → List α) (i : ℕ) (x : α) : Option (ℕ → List α) :=
  if i < n ∧ ∀ j < n, x ∉ L j then some (Function.update L i (L i ++ [x])) else none

/-- Removes `x` from list `i`; no result if it is not linked there. -/
def remove (n : ℕ) (L : ℕ → List α) (i : ℕ) (x : α) : Option (ℕ → List α) :=
  if i < n ∧ x ∈ L i then some (Function.update L i ((L i).erase x)) else none

/-- The nodes of all lists, each with the index of its list. -/
def entries (n : ℕ) (L : ℕ → List α) : List (α × ℕ) :=
  (List.range n).flatMap fun i => (L i).map fun x => (x, i)

variable {i n : ℕ} {x : α} {L : ℕ → List α}

theorem append_eq (hi : i < n) (hx : ∀ j < n, x ∉ L j) :
    append n L i x = some (update L i (L i ++ [x])) := if_pos ⟨hi, hx⟩

theorem remove_eq (hi : i < n) (hx : x ∈ L i) :
    remove n L i x = some (update L i ((L i).erase x)) := if_pos ⟨hi, hx⟩

omit [DecidableEq α] in
theorem mem_entries : (x, i) ∈ entries n L ↔ i < n ∧ x ∈ L i := by
  simp only [entries, mem_flatMap, mem_range, mem_map, Prod.mk.injEq]
  constructor
  · rintro ⟨j, hj, y, hy, rfl, rfl⟩
    exact ⟨hj, hy⟩
  · rintro ⟨hi, hx⟩
    exact ⟨i, hi, x, hx, rfl, rfl⟩

theorem flatMap_perm {β : Type*} {l : List α} (hl : l.Nodup) {m : α} (hm : m ∈ l) {f g : α → List β}
    {xs : List β} (hfg : f m ~ xs ++ g m) (hne : ∀ x ∈ l, x ≠ m → f x = g x) :
    l.flatMap f ~ xs ++ l.flatMap g := by
  have hp : l ~ m :: l.erase m := perm_cons_erase hm
  have hrest : (l.erase m).flatMap f = (l.erase m).flatMap g := flatMap_congr fun x hx =>
    hne x (mem_of_mem_erase hx) (hl.mem_erase_iff.mp hx).1
  calc l.flatMap f ~ f m ++ (l.erase m).flatMap f := hp.flatMap_right f
    _ ~ (xs ++ g m) ++ (l.erase m).flatMap g := by rw [hrest]; exact hfg.append_right _
    _ = xs ++ (g m ++ (l.erase m).flatMap g) := append_assoc _ _ _
    _ ~ xs ++ l.flatMap g := (hp.flatMap_right g).symm.append_left xs

omit [DecidableEq α] in
theorem entries_update {l : List α} (hi : i < n) (hl : l.Perm (x :: L i)) :
    (entries n (update L i l)).Perm ((x, i) :: entries n L) := by
  refine flatMap_perm nodup_range (mem_range.mpr hi)
    (show _ ~ [(x, i)] ++ _ from ?_) ?_
  · rw [update_self]
    exact hl.map _
  · intro j _ hj
    rw [update_of_ne hj]

omit [DecidableEq α] in
theorem entries_append (L : ℕ → List α) (x : α) (hi : i < n) :
    (entries n (update L i (L i ++ [x]))).Perm ((x, i) :: entries n L) :=
  entries_update hi (perm_append_singleton x (L i))

theorem entries_erase (L : ℕ → List α) (hi : i < n) (hx : x ∈ L i) :
    (entries n L).Perm ((x, i) :: entries n (update L i ((L i).erase x))) := by
  have h := entries_update (L := update L i ((L i).erase x)) (x := x) (l := L i) hi
    (by rw [update_self]; exact perm_cons_erase hx)
  rwa [update_idem, update_eq_self] at h

end Pool
