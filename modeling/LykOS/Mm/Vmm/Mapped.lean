import LykOS.Mm.Vmm.Copy

/-!
# Which pages are mapped

Populating an anonymous mapping maps its pages, wherever they are modulo `2 ^ 64`, unless one of
them is not canonical (`populate_anonymous`). `vmm_copy_to` succeeds where all pages are mapped
(`copyLoop_mapped`), and only there if the fault handler knows of no segment for the others
(`copyLoop_some`).
-/

namespace LykOS.Vmm

open Vfs X8664

/-! ## Populating -/

section

variable {M : Machine} {a : MmapArgs} {virt : ℕ}

/-- The pages from `virt` on, modulo `2 ^ 64`. -/
def IsPage (virt n p : ℕ) : Prop := ∃ j < n, p = u64 (virt + j * archPageGran)

instance (virt n p : ℕ) : Decidable (IsPage virt n p) :=
  inferInstanceAs (Decidable (∃ j < n, p = u64 (virt + j * archPageGran)))

theorem isPage_succ {n p : ℕ} :
    IsPage virt (n + 1) p ↔ IsPage virt n p ∨ p = u64 (virt + n * archPageGran) := by
  constructor
  · rintro ⟨j, hj, rfl⟩
    rcases Nat.lt_succ_iff_lt_or_eq.mp hj with hj | rfl
    · exact Or.inl ⟨j, hj, rfl⟩
    · exact Or.inr rfl
  · rintro (⟨j, hj, rfl⟩ | rfl)
    · exact ⟨j, Nat.lt_succ_of_lt hj, rfl⟩
    · exact ⟨n, Nat.lt_succ_self n, rfl⟩

/-- From `st` to `st'`, `n` pages from `virt` on have been mapped. -/
structure Populated (virt n : ℕ) (st st' : State) : Prop where
  as : st'.as = st.as
  taken : st'.store.taken = st.store.taken + n
  pages : ∀ p, st'.pages p ≠ none ↔ st.pages p ≠ none ∨ IsPage virt n p

theorem populatePage_anonymous (ha : a.IsAnonymous) (st : State) (i : ℕ) :
    populatePage M a virt st i =
      if CanonicalPage (u64 (virt + i)) then some (st.clearPage M (u64 (virt + i))) else none := by
  rw [populatePage, if_pos ha.isPrivate, ha.vnode]
  split_ifs with hc
  · exact installPrivate_clear ha.anon hc
  · rw [installPrivate, State.map, show (guard (CanonicalPage (u64 (virt + i))) : Option Unit) = none from
      if_neg hc]
    rfl

theorem populate_anonymous (ha : a.IsAnonymous) (st : State) (n : ℕ) :
    ((∀ p, IsPage virt n p → CanonicalPage p) →
        ∃ st', populate M a virt st n = some st' ∧ Populated virt n st st') ∧
      (¬ (∀ p, IsPage virt n p → CanonicalPage p) → populate M a virt st n = none) := by
  unfold populate
  induction n with
  | zero =>
    refine ⟨fun _ => ⟨st, rfl, rfl, rfl, fun p => ?_⟩, fun h => ?_⟩
    · refine (or_iff_left ?_).symm
      rintro ⟨j, hj, -⟩
      exact absurd hj (Nat.not_lt_zero j)
    · refine absurd (fun p hp => ?_) h
      obtain ⟨j, hj, -⟩ := hp
      exact absurd hj (Nat.not_lt_zero j)
  | succ n ih =>
    rw [List.range_succ, List.foldlM_append]
    by_cases hall : ∀ p, IsPage virt n p → CanonicalPage p
    · obtain ⟨st1, hrun, hst1⟩ := ih.1 hall
      rw [hrun, Option.bind_eq_bind, Option.bind_some]
      simp only [List.foldlM_cons, List.foldlM_nil, Option.bind_eq_bind, Option.pure_def,
        Option.bind_fun_some]
      rw [populatePage_anonymous ha]
      refine ⟨fun h => ?_, fun h => ?_⟩
      · rw [if_pos (h _ (isPage_succ.mpr (Or.inr rfl)))]
        refine ⟨_, rfl, hst1.as, congrArg (· + 1) hst1.taken, fun p => ?_⟩
        rw [isPage_succ, ← or_assoc, ← hst1.pages p]
        show Function.update st1.pages _ _ p ≠ none ↔ _
        by_cases hp : p = u64 (virt + n * archPageGran)
        · subst hp
          rw [Function.update_self]
          exact ⟨fun _ => Or.inr rfl, fun _ => Option.some_ne_none _⟩
        · rw [Function.update_of_ne hp]
          exact (or_iff_left hp).symm
      · refine if_neg fun hc => h fun p hp => ?_
        rcases isPage_succ.mp hp with hp | rfl
        · exact hall p hp
        · exact hc
    · rw [ih.2 hall]
      exact ⟨fun h => absurd (fun p hp => h p (isPage_succ.mpr (Or.inl hp))) hall, fun _ => rfl⟩

end

/-! ## Copying to mapped pages -/

section

variable {M : Machine} {destAddr count : ℕ} {src : ℕ → UInt8}

def destPage (destAddr k : ℕ) : ℕ := floorTo (u64 (destAddr + k)) archPageGran

theorem destPage_of_round {i k : ℕ} (hik : i ≤ k)
    (hk : k < i + (archPageGran - u64 (destAddr + i) % archPageGran)) :
    destPage destAddr k = destPage destAddr i := by
  unfold destPage floorTo u64 archPageGran at *
  omega

theorem touch_of_mapped {st : State} {addr frame : ℕ}
    (h : st.pages (floorTo addr archPageGran) = some frame) : touch M st addr = some (frame, st) := by
  rw [touch, h]

theorem copyLoop_mapped {n : ℕ} : ∀ {i : ℕ} {st : State}, count - i < n →
    (∀ k, i ≤ k → k < count → st.pages (destPage destAddr k) ≠ none) →
    ∃ c st', copyLoop M destAddr src count n i st = some (c, st') ∧ SamePages st st' := by
  induction n with
  | zero => exact fun h => absurd h (Nat.not_lt_zero _)
  | succ n ih =>
    intro i st hn hmapped
    rw [copyLoop]
    split_ifs with hi
    · obtain ⟨frame, hframe⟩ := Option.ne_none_iff_exists'.mp (hmapped i (Nat.le_refl i) hi)
      rw [touch_of_mapped hframe]
      have hmod := Nat.mod_lt (u64 (destAddr + i)) (show 0 < archPageGran by decide)
      obtain ⟨c, st', hrun, hsame⟩ := @ih (i + min (count - i)
          (archPageGran - u64 (destAddr + i) % archPageGran))
        (st.setFrame frame (memcpy (st.store.mem frame) (u64 (destAddr + i) % archPageGran) src i
          (min (count - i) (archPageGran - u64 (destAddr + i) % archPageGran))))
        (by omega) fun k hk hlt => hmapped k (by omega) hlt
      exact ⟨c, st', hrun, hsame.as, hsame.pages, hsame.taken⟩
    · exact ⟨i, st, rfl, rfl, rfl, rfl⟩

theorem copyLoop_some {n : ℕ} : ∀ {i : ℕ} {st : State} {r : ℕ × State},
    (∀ k, k < count → st.pages (destPage destAddr k) = none →
      vmmAddrToSeg st.as (u64 (destAddr + k)) = none) →
    copyLoop M destAddr src count n i st = some r →
    ∀ k, i ≤ k → k < count → st.pages (destPage destAddr k) ≠ none := by
  induction n with
  | zero =>
    intro i st r _ h
    cases h
  | succ n ih =>
    intro i st r hseg h k hik hk
    rw [copyLoop, if_pos (by omega)] at h
    obtain ⟨⟨frame, st1⟩, htouch, h⟩ := Option.bind_eq_some_iff.mp h
    have hmapped : st.pages (destPage destAddr i) ≠ none := by
      intro hnone
      rw [touch_of_unmapped hnone (hseg i (by omega) hnone)] at htouch
      cases htouch
    obtain ⟨frame', hframe⟩ := Option.ne_none_iff_exists'.mp hmapped
    rw [touch_of_mapped hframe] at htouch
    cases htouch
    by_cases hround : k < i + (archPageGran - u64 (destAddr + i) % archPageGran)
    · rw [destPage_of_round hik hround]
      exact hmapped
    · exact @ih _ (st.setFrame _ _) _ hseg h k (by omega) hk

end

end LykOS.Vmm
