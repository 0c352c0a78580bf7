import LykOS.Mm.Pmm.Coalesce

/-!
# Double frees

`pmm_free` checks the flag in the record of the page it is given. A step rewrites only the records of
pages at which a block starts when it is over (`step_record`), so the flag of a freed page says
whether a free block has started there since. When the freed block is merged with a buddy on its left
it becomes the inside of a larger block, its record keeps the flag of an outstanding block, and the
check lets a second free through.
-/

namespace LykOS.Pmm

open Tiling

/-- `pmm_free(addr)` stops at `ASSERT(block->free == false)`. -/
def TripsAssert (hhdm : ℕ) (s : PmmState) (addr : ℕ) : Prop :=
  addr < hhdm ∧ ∃ b, s.block (addr / archPageGran) = some b ∧ b.free = true

theorem pmmFree_of_tripsAssert {hhdm addr : ℕ} {s : PmmState} (h : TripsAssert hhdm s addr) :
    pmmFree hhdm s addr = none := by
  obtain ⟨hlt, b, hb, hfree⟩ := h
  have hg : (guard (addr < hhdm) : Option Unit) = some () := if_pos hlt
  have hg' : (guard (b.free = false) : Option Unit) = none := if_neg (by rw [hfree]; simp)
  simp only [pmmFree, hg, hb, hg', Option.bind_eq_bind, Option.bind_some, Option.bind_none]

def StartsFree (p : ℕ) (x : PmmState × List Block) : Prop :=
  ∃ k ≤ pmmMaxOrder, p ∈ x.1.levels k

def IsOut (p : ℕ) (x : PmmState × List Block) : Prop := ∃ b ∈ x.2, p ∈ b

theorem startsFree_iff {p : ℕ} {x : PmmState × List Block} :
    StartsFree p x ↔ ∃ k, (⟨p, k⟩ : Block) ∈ freeBlocks x.1.levels := by
  simp only [StartsFree, mem_freeBlocks]

theorem Owned.free_of_startsFree {P : Set ℕ} {x : PmmState × List Block} {p : ℕ}
    (h : Owned P x.1 x.2 []) (hp : StartsFree p x) : (x.1.blocks p).free = true := by
  obtain ⟨k, hk⟩ := startsFree_iff.mp hp
  exact (h.free_record _ hk).1

section Runs

variable {hhdm : ℕ} {map : List MemmapEntry} (hmap : MemmapOk hhdm map)
  {x y : PmmState × List Block} {o : Op} {p : ℕ}

include hmap in
theorem step_record (h : Owned (managed map) x.1 x.2 []) (hs : step hhdm x o = some y)
    (hp : ¬ IsOut p y) : y.1.blocks p = x.1.blocks p ∨ StartsFree p y := by
  have h' := step_owned hmap x o y h hs
  rw [startsFree_iff]
  rcases step_cases h hs with ⟨order, n, ha, hout, -⟩ | ⟨b, -, hf, -⟩
  · refine (pmmAlloc_effect h ha).2 p ?_
    rintro rfl
    exact hp ⟨⟨p, order⟩, hout ▸ List.mem_cons_self, (⟨p, order⟩ : Block).head_mem⟩
  · obtain ⟨c, hc, -, -, hrec⟩ := pmmFree_effect hf h'
    by_cases hpc : p = c.head
    · subst hpc
      exact Or.inr ⟨c.order, hc⟩
    · exact Or.inl (hrec p hpc)

include hmap in
theorem step_flag (h : Owned (managed map) x.1 x.2 []) (hs : step hhdm x o = some y)
    (hp : ¬ IsOut p y) :
    (y.1.blocks p).free = true ↔ (x.1.blocks p).free = true ∨ StartsFree p y := by
  have hstart := fun hp => (step_owned hmap x o y h hs).free_of_startsFree (p := p) hp
  rcases step_record hmap h hs hp with heq | hfree
  · rw [heq] at hstart ⊢
    exact ⟨Or.inl, fun hx => hx.elim id hstart⟩
  · exact ⟨fun _ => Or.inr hfree, fun _ => hstart hfree⟩

include hmap in
theorem run_flag {ops : List Op} (h : Owned (managed map) x.1 x.2 [])
    (hrun : Run.run (step hhdm) x ops = some y) (hp : ¬ Run.Visits (step hhdm) (IsOut p) x ops) :
    (y.1.blocks p).free = true ↔
      (x.1.blocks p).free = true ∨ Run.Visits (step hhdm) (StartsFree p) x ops := by
  induction ops generalizing x with
  | nil =>
    cases hrun
    rw [Run.visits_nil]
    exact ⟨Or.inl, fun hx => hx.elim id h.free_of_startsFree⟩
  | cons o ops ih =>
    obtain ⟨x', hs, hrun⟩ := Run.run_cons_eq_some.mp hrun
    rw [Run.visits_cons hs, not_or] at hp
    have hp' : ¬ IsOut p x' := fun hx => hp.2 (Run.visits_of_start ops hx)
    rw [ih (step_owned hmap x o x' h hs) hrun hp.2, step_flag hmap h hs hp', Run.visits_cons hs]
    constructor
    · rintro ((hx | hx) | hx)
      · exact Or.inl hx
      · exact Or.inr (Or.inr (Run.visits_of_start ops hx))
      · exact Or.inr (Or.inr hx)
    · rintro (hx | hx | hx)
      · exact Or.inl (Or.inl hx)
      · exact Or.inl (Or.inl (h.free_of_startsFree hx))
      · exact Or.inr hx

end Runs

/-- A second free of an address that has not been handed out since the first one is caught exactly
when a free block has started there since. -/
theorem double_free_caught_iff {hhdm : ℕ} {map : List MemmapEntry} (hmap : MemmapOk hhdm map)
    {s₀ : PmmState} {x y z : PmmState × List Block} {before after : List Op} {addr : ℕ}
    (h₀ : pmmInit hhdm map = some s₀) (hbefore : Run.run (step hhdm) (s₀, []) before = some x)
    (hfree : step hhdm x (.free addr) = some y) (hafter : Run.run (step hhdm) y after = some z)
    (hout : ¬ Run.Visits (step hhdm) (IsOut (addr / archPageGran)) y after) :
    TripsAssert hhdm z.1 addr ↔
      Run.Visits (step hhdm) (StartsFree (addr / archPageGran)) y after := by
  have hx : Owned (managed map) x.1 x.2 [] := run_owned hmap h₀ hbefore
  have hy := step_owned hmap x _ y hx hfree
  have hz : Owned (managed map) z.1 z.2 [] :=
    Run.run_induction (I := fun x => Owned (managed map) x.1 x.2 []) (step_owned hmap) hy hafter
  -- the address is that of a block outstanding before the first free
  obtain ⟨b, hb, rfl⟩ : ∃ b ∈ x.2, archPageGran * b.head = addr := by
    simp only [step, Option.bind_eq_bind, Option.bind_eq_some_iff] at hfree
    obtain ⟨b, hb, -⟩ := hfree
    exact ⟨b, List.mem_of_find?_eq_some hb, by simpa using List.find?_some hb⟩
  rw [Nat.mul_div_cancel_left b.head (by decide)] at hout ⊢
  have hP : b.head ∈ managed map := hx.tiles.mem_of_head (by simp [hb])
  have hlt : b.head < z.1.blockCount := hz.lt_count _ hP
  have htrips : TripsAssert hhdm z.1 (archPageGran * b.head) ↔ (z.1.blocks b.head).free = true := by
    rw [TripsAssert, Nat.mul_div_cancel_left b.head (by decide), PmmState.block, if_pos hlt]
    simp only [Option.some.injEq, exists_eq_left', managed_lt hmap hP, true_and]
  have hyflag : (y.1.blocks b.head).free = true ↔ StartsFree b.head y := by
    rw [step_flag hmap hx hfree fun h => hout (Run.visits_of_start after h), (hx.out_record b hb).1]
    simp
  rw [htrips, run_flag hmap hy hafter hout, hyflag, or_iff_right_of_imp]
  exact Run.visits_of_start after

def leftFirst : List Op := [.alloc 0, .alloc 0, .alloc 0, .free 0x2000]

/-- The right buddy is freed, and freed again: page 3 is then in two free blocks. -/
theorem double_free_not_caught :
    ∃ s₀ x y s', pmmInit archKernelMinVirt sampleMap = some s₀ ∧
      Run.run (step archKernelMinVirt) (s₀, []) leftFirst = some x ∧
        step archKernelMinVirt x (.free 0x3000) = some y ∧ y.2 = [⟨4, 0⟩] ∧
          ¬ TripsAssert archKernelMinVirt y.1 0x3000 ∧
            pmmFree archKernelMinVirt y.1 0x3000 = some s' ∧ s'.levels 0 = [3] ∧
              s'.levels 1 = [6, 2] := by
  obtain ⟨s₀, h₀, x, hx, y, hy, hout, hflag, s', hs', h0, h1⟩ :
      ∃ s₀ ∈ pmmInit archKernelMinVirt sampleMap,
        ∃ x ∈ Run.run (step archKernelMinVirt) (s₀, []) leftFirst,
          ∃ y ∈ step archKernelMinVirt x (.free 0x3000), y.2 = [⟨4, 0⟩] ∧
            (∀ b ∈ y.1.block (0x3000 / archPageGran), b.free = false) ∧
            ∃ s' ∈ pmmFree archKernelMinVirt y.1 0x3000, s'.levels 0 = [3] ∧ s'.levels 1 = [6, 2] := by
    decide
  refine ⟨s₀, x, y, s', h₀, hx, hy, hout, ?_, hs', h0, h1⟩
  rintro ⟨-, b, hb, hfree⟩
  exact Bool.false_ne_true ((hflag b hb).symm.trans hfree)

/-- The left buddy freed twice in a row is caught. -/
theorem double_free_caught_iff_sample :
    ∃ s₀ x y, pmmInit archKernelMinVirt sampleMap = some s₀ ∧
      Run.run (step archKernelMinVirt) (s₀, []) [.alloc 0, .alloc 0, .alloc 0] = some x ∧
        step archKernelMinVirt x (.free 0x2000) = some y ∧
          ¬ Run.Visits (step archKernelMinVirt) (IsOut 2) y [] ∧
            TripsAssert archKernelMinVirt y.1 0x2000 := by
  obtain ⟨s₀, h₀, x, hx, y, hy, hout, h0⟩ : ∃ s₀ ∈ pmmInit archKernelMinVirt sampleMap,
      ∃ x ∈ Run.run (step archKernelMinVirt) (s₀, []) [.alloc 0, .alloc 0, .alloc 0],
        ∃ y ∈ step archKernelMinVirt x (.free 0x2000), y.2 = [⟨3, 0⟩, ⟨4, 0⟩] ∧ 2 ∈ y.1.levels 0 := by
    decide
  have hnot : ¬ Run.Visits (step archKernelMinVirt) (IsOut 2) y [] := by
    rw [Run.visits_nil, IsOut, hout]
    decide
  refine ⟨s₀, x, y, h₀, hx, hy, hnot, ?_⟩
  exact (double_free_caught_iff sampleMap_ok h₀ hx hy rfl hnot).mpr
    (Run.visits_of_start [] ⟨0, by decide, h0⟩)

end LykOS.Pmm
