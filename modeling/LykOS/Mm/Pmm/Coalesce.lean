import LykOS.Mm.Pmm.Init

/-!
# Full coalescing

Splitting adds right halves to the free lists, whose buddies overlap the block that is handed out, and
merging stops at a block whose buddy is on no list. So a state without two free buddies below
`PMM_MAX_ORDER` stays one (`step_coalesced`). The free blocks are then the only coalesced tiling of the
pages that are not outstanding.
-/

namespace LykOS.Pmm

open Tiling Function

variable {P : Set ℕ} {s s' : PmmState} {out : List Block}

/-! ## What an operation changes -/

variable {hhdm n order : ℕ}

/-- A block that becomes free is on its list, and only its record changes, not the address in it. -/
theorem putFree_effect {idx : ℕ} (h : s.putFree idx order = some s') :
    (∀ b, b ∈ freeBlocks s'.levels ↔ b = ⟨idx, order⟩ ∨ b ∈ freeBlocks s.levels) ∧
      (∀ j, j ≠ idx → s'.blocks j = s.blocks j) ∧
        (∀ j, (s'.blocks j).addr = (s.blocks j).addr) ∧ s'.blockCount = s.blockCount := by
  simp only [PmmState.putFree, PmmState.setBlock, Option.bind_eq_bind, Option.bind_eq_some_iff] at h
  obtain ⟨s₁, hset, happ⟩ := h
  split_ifs at hset
  cases hset
  obtain ⟨l, hl, rfl⟩ := Option.map_eq_some_iff.mp happ
  rw [Pool.append] at hl
  split_ifs at hl with hnew
  cases hl
  refine ⟨fun b => ?_, fun j hj => update_of_ne hj _ _, fun j => ?_, rfl⟩
  · have hperm : (freeBlocks (update s.levels order (s.levels order ++ [idx]))).Perm
        (⟨idx, order⟩ :: freeBlocks s.levels) :=
      (Pool.entries_append s.levels idx hnew.1).map _
    exact hperm.mem_iff.trans List.mem_cons
  · by_cases hj : j = idx
    · subst hj
      simp only [update_self]
    · simp only [update_of_ne hj]

theorem listRemove_effect {idx : ℕ} (h : s.listRemove order idx = some s') :
    (∀ b ∈ freeBlocks s'.levels, b ∈ freeBlocks s.levels) ∧ s'.blocks = s.blocks ∧
      s'.blockCount = s.blockCount := by
  obtain ⟨l, hl, rfl⟩ := Option.map_eq_some_iff.mp h
  rw [Pool.remove] at hl
  split_ifs at hl with hmem
  cases hl
  refine ⟨fun b hb => ?_, rfl, rfl⟩
  have hperm : (freeBlocks s.levels).Perm (⟨idx, order⟩ :: freeBlocks
      (update s.levels order ((s.levels order).erase idx))) :=
    (Pool.entries_erase s.levels hmem.1 hmem.2).map _
  exact hperm.mem_iff.mpr (List.mem_cons_of_mem _ hb)

/-- Splitting block `n` adds blocks whose buddies start at `n`, and rewrites their records only. -/
theorem splitBlock_effect {i : ℕ} (haddr : (s.blocks n).addr = archPageGran * n)
    (h : splitBlock order n i s = some s') :
    (∀ b ∈ freeBlocks s'.levels, b ∈ freeBlocks s.levels ∨ b.buddy = n) ∧
      (∀ b ∈ freeBlocks s.levels, b ∈ freeBlocks s'.levels) ∧
        (∀ j, s'.blocks j = s.blocks j ∨ ∃ k, (⟨j, k⟩ : Block) ∈ freeBlocks s'.levels) ∧
          ∀ j, (s'.blocks j).addr = (s.blocks j).addr := by
  induction i generalizing s with
  | zero =>
    cases h
    exact ⟨fun b hb => Or.inl hb, fun b hb => hb, fun j => Or.inl rfl, fun j => rfl⟩
  | succ i ih =>
    rw [splitBlock] at h
    split_ifs at h with hlt
    · simp only [PmmState.block, Option.bind_eq_bind, Option.bind_eq_some_iff] at h
      obtain ⟨b, hb, s₁, hput, h⟩ := h
      split_ifs at hb
      cases hb
      rw [haddr, Nat.mul_div_cancel_left n (by decide), pmmOrderToPagecount_eq] at hput
      set r : Block := ⟨n ^^^ 2 ^ i, i⟩ with hr
      have hbuddy : r.buddy = n := Block.buddy_buddy ⟨n, i⟩
      obtain ⟨hmem, hrec, hkeep, -⟩ := putFree_effect hput
      obtain ⟨h1, h2, h3, h4⟩ := ih ((hkeep n).trans haddr) h
      refine ⟨fun b hb => ?_, fun b hb => h2 b ((hmem b).mpr (Or.inr hb)), fun j => ?_,
        fun j => (h4 j).trans (hkeep j)⟩
      · rcases h1 b hb with hb | hb
        · rcases (hmem b).mp hb with rfl | hb
          · exact Or.inr hbuddy
          · exact Or.inl hb
        · exact Or.inr hb
      · by_cases hj : j = n ^^^ 2 ^ i
        · subst hj
          exact Or.inr ⟨i, h2 r ((hmem r).mpr (Or.inl rfl))⟩
        · rw [← hrec j hj]
          exact h3 j
    · cases h
      exact ⟨fun b hb => Or.inl hb, fun b hb => hb, fun j => Or.inl rfl, fun j => rfl⟩

theorem mergeBlock_effect {idx i idx' i' : ℕ} (h : mergeBlock n s idx i = some (s', idx', i')) :
    (∀ b ∈ freeBlocks s'.levels, b ∈ freeBlocks s.levels) ∧ s'.blocks = s.blocks ∧
      s'.blockCount = s.blockCount ∧
        (i' = i + n ∨ s.blockCount ≤ (⟨idx', i'⟩ : Block).buddy ∨
          ¬ ((s.blocks (⟨idx', i'⟩ : Block).buddy).free = true ∧
            (s.blocks (⟨idx', i'⟩ : Block).buddy).order = i')) := by
  induction n generalizing idx i s with
  | zero =>
    cases h
    exact ⟨fun b hb => hb, rfl, rfl, Or.inl rfl⟩
  | succ n ih =>
    have hx : idx ^^^ pmmOrderToPagecount i = (⟨idx, i⟩ : Block).buddy := by
      rw [pmmOrderToPagecount_eq]; rfl
    simp only [mergeBlock, hx, Option.bind_eq_bind] at h
    by_cases hlt : s.blockCount ≤ (⟨idx, i⟩ : Block).buddy
    · rw [if_pos hlt] at h
      cases h
      exact ⟨fun b hb => hb, rfl, rfl, Or.inr (Or.inl hlt)⟩
    · rw [if_neg hlt, PmmState.block, if_pos (by omega), Option.bind_some] at h
      by_cases hf : (s.blocks (⟨idx, i⟩ : Block).buddy).free = true ∧
          (s.blocks (⟨idx, i⟩ : Block).buddy).order = i
      · rw [if_pos hf] at h
        obtain ⟨s₁, hrem, h⟩ := Option.bind_eq_some_iff.mp h
        obtain ⟨hsub, hblocks, hcount⟩ := listRemove_effect hrem
        obtain ⟨h1, h2, h3, h4⟩ := ih h
        refine ⟨fun b hb => hsub b (h1 b hb), h2.trans hblocks, h3.trans hcount, ?_⟩
        rw [hblocks, hcount] at h4
        exact h4.imp_left fun e => by omega
      · rw [if_neg hf] at h
        cases h
        exact ⟨fun b hb => hb, rfl, rfl, Or.inr (Or.inr hf)⟩

/-- An allocation adds free blocks whose buddies start at the block it hands out, and rewrites their
records. -/
theorem pmmAlloc_effect (h : Owned P s out []) (ha : pmmAlloc s order = some (archPageGran * n, s')) :
    (∀ b ∈ freeBlocks s'.levels, b ∈ freeBlocks s.levels ∨ b.buddy = n) ∧
      ∀ j, j ≠ n → s'.blocks j = s.blocks j ∨ ∃ k, (⟨j, k⟩ : Block) ∈ freeBlocks s'.levels := by
  simp only [pmmAlloc, Option.bind_eq_bind, Option.bind_eq_some_iff, Option.pure_def] at ha
  obtain ⟨_, hg, i, hi, m, hm, s₁, hrem, s₂, hsplit, s₃, hset, b, hb, ha⟩ := ha
  have ho : order ≤ pmmMaxOrder := (Option.guard_eq_some' _).mp hg
  obtain ⟨hsub, hblocks, -⟩ := listRemove_effect hrem
  have hmfree : (⟨m, i⟩ : Block) ∈ freeBlocks s.levels := by
    have := (findLevel_spec hi).2.1
    exact mem_freeBlocks.mpr ⟨show i ≤ pmmMaxOrder by omega, List.mem_of_mem_head? hm⟩
  have hlt : m < s.blockCount := h.head_lt (b := ⟨m, i⟩) (by simp [hmfree])
  have haddr : (s₁.blocks m).addr = archPageGran * m := by rw [hblocks]; exact h.addr_eq m hlt
  obtain ⟨h1, -, h3, h4⟩ := splitBlock_effect haddr hsplit
  rw [PmmState.setBlock] at hset
  split_ifs at hset with hm₂
  cases hset
  rw [PmmState.block, if_pos hm₂] at hb
  cases hb
  rw [Option.some.injEq, Prod.mk.injEq] at ha
  obtain ⟨haddr', rfl⟩ := ha
  -- the address in the record of the block is where it starts
  simp only [update_self, h4 m, haddr] at haddr'
  obtain rfl : m = n := Nat.eq_of_mul_eq_mul_left (by decide) haddr'
  refine ⟨fun b hb => (h1 b hb).imp_left (hsub b), fun j hj => ?_⟩
  simp only [update_of_ne hj, ← hblocks]
  exact h3 j

theorem pmmFree_effect {addr : ℕ} (hf : pmmFree hhdm s addr = some s') (h : Owned P s' out []) :
    ∃ b ∈ freeBlocks s'.levels, (∀ c ∈ freeBlocks s'.levels, c = b ∨ c ∈ freeBlocks s.levels) ∧
      (b.order < pmmMaxOrder → (⟨b.buddy, b.order⟩ : Block) ∉ freeBlocks s'.levels) ∧
        ∀ j, j ≠ b.head → s'.blocks j = s.blocks j := by
  simp only [pmmFree, Option.bind_eq_bind, Option.bind_eq_some_iff] at hf
  obtain ⟨_, -, r, -, _, -, ⟨s₁, idx, i⟩, hmerge, hput⟩ := hf
  obtain ⟨h1, h2, h3, h4⟩ := mergeBlock_effect hmerge
  obtain ⟨hmem, hrec, -, hcount⟩ := putFree_effect (show s₁.putFree idx i = some s' from hput)
  set b : Block := ⟨idx, i⟩ with hb
  have hbfree := (hmem b).mpr (Or.inl rfl)
  refine ⟨b, hbfree, fun c hc => ((hmem c).mp hc).imp_right (h1 c), fun hlt hbuddy => ?_,
    fun j hj => by rw [hrec j hj, h2]⟩
  have hne : b.buddy ≠ idx := by
    intro e
    refine Block.buddy_not_mem (h.tiles.aligned b (by simp [hbfree])) ?_
    rw [e]
    exact b.head_mem
  -- the merge would not have stopped before a free buddy
  obtain ⟨hfree, hord⟩ := h.free_record _ hbuddy
  have hcnt : b.buddy < s'.blockCount := h.head_lt (b := ⟨b.buddy, b.order⟩) (by simp [hbuddy])
  rw [hrec _ hne, h2] at hfree hord
  rcases h4 with h4 | h4 | h4
  · have : b.order = i := rfl
    omega
  · omega
  · exact h4 ⟨hfree, hord⟩

/-! ## Free buddies -/

/-- No two buddies below `PMM_MAX_ORDER` are both on the free lists. -/
def NoFreeBuddies (s : PmmState) : Prop :=
  ∀ b, OnFreeList s b → b.order < pmmMaxOrder → ¬ OnFreeList s ⟨b.buddy, b.order⟩

theorem noFreeBuddies_iff : NoFreeBuddies s ↔ Coalesced pmmMaxOrder (freeBlocks s.levels) := by
  simp only [NoFreeBuddies, Coalesced, OnFreeList, mem_freeBlocks]

instance (s : PmmState) : Decidable (NoFreeBuddies s) := decidable_of_iff _ noFreeBuddies_iff.symm

theorem pmmAlloc_coalesced (h : Owned P s out []) (hc : Coalesced pmmMaxOrder (freeBlocks s.levels))
    (ha : pmmAlloc s order = some (archPageGran * n, s')) (h' : Owned P s' (⟨n, order⟩ :: out) []) :
    Coalesced pmmMaxOrder (freeBlocks s'.levels) := by
  obtain ⟨hnew, -⟩ := pmmAlloc_effect h ha
  -- a free block that starts at `n` would share a page with the block handed out
  have hn : ∀ k, (⟨n, k⟩ : Block) ∉ freeBlocks s'.levels := by
    intro k hk
    have htiles : Tiles P (⟨n, order⟩ :: (out ++ freeBlocks s'.levels)) := h'.tiles
    exact htiles.not_mem_of_cons (List.mem_append_right _ hk) (⟨n, order⟩ : Block).head_mem
      (⟨n, k⟩ : Block).head_mem
  intro b hb hlt hbuddy
  rcases hnew b hb with hold | hbn
  · rcases hnew _ hbuddy with hold' | hbn'
    · exact hc b hold hlt hold'
    · rw [Block.buddy_buddy] at hbn'
      exact hn b.order (hbn' ▸ hb)
  · rw [hbn] at hbuddy
    exact hn b.order hbuddy

theorem pmmFree_coalesced (hc : Coalesced pmmMaxOrder (freeBlocks s.levels)) {addr : ℕ}
    (hf : pmmFree hhdm s addr = some s') (h' : Owned P s' out []) :
    Coalesced pmmMaxOrder (freeBlocks s'.levels) := by
  obtain ⟨b, hbfree, hnew, hb, -⟩ := pmmFree_effect hf h'
  intro c hcfree hlt hbuddy
  rcases hnew c hcfree with rfl | hold
  · exact hb hlt hbuddy
  · rcases hnew _ hbuddy with e | hold'
    · -- the new block is the buddy of `c`, so `c` is the buddy of the new block
      have hcb : (⟨b.buddy, b.order⟩ : Block) = c := by
        rw [← e, Block.buddy_buddy]
      refine hb (by rw [← e]; exact hlt) ?_
      rw [hcb]
      exact hcfree
    · exact hc c hold hlt hold'

theorem step_coalesced {map : List MemmapEntry} (hmap : MemmapOk hhdm map) (x : PmmState × List Block)
    (o : Op) (y : PmmState × List Block)
    (h : Owned (managed map) x.1 x.2 [] ∧ Coalesced pmmMaxOrder (freeBlocks x.1.levels))
    (hs : step hhdm x o = some y) :
    Owned (managed map) y.1 y.2 [] ∧ Coalesced pmmMaxOrder (freeBlocks y.1.levels) := by
  obtain ⟨hown, hc⟩ := h
  have hown' := step_owned hmap x o y hown hs
  refine ⟨hown', ?_⟩
  rcases step_cases hown hs with ⟨order, n, ha, hout, -⟩ | ⟨b, -, hf, -⟩
  · exact pmmAlloc_coalesced hown hc ha (hout ▸ hown')
  · exact pmmFree_coalesced hc hf hown'

/-- After a run, the free lists hold a coalesced tiling of the managed pages that are not outstanding. -/
theorem run_free_tiles {hhdm : ℕ} {map : List MemmapEntry} {s₀ : PmmState} {ops : List Op}
    (hmap : MemmapOk hhdm map) (h₀ : pmmInit hhdm map = some s₀) (hc₀ : NoFreeBuddies s₀)
    (hrun : Run.run (step hhdm) (s₀, []) ops = some (s, out)) :
    Owned (managed map) s out [] ∧ Coalesced pmmMaxOrder (freeBlocks s.levels) ∧
      Tiles {p | p ∈ managed map ∧ ∀ c ∈ out, p ∉ c} (freeBlocks s.levels) := by
  obtain ⟨hown, hcoal⟩ := Run.run_induction
    (I := fun x => Owned (managed map) x.1 x.2 [] ∧ Coalesced pmmMaxOrder (freeBlocks x.1.levels))
    (step_coalesced hmap) ⟨pmmInit_owned hmap h₀, noFreeBuddies_iff.mp hc₀⟩ hrun
  exact ⟨hown, hcoal, (show Tiles (managed map) (out ++ freeBlocks s.levels) from hown.tiles).rest⟩

theorem onFreeList_iff_of_tiles (h : Tiles P (freeBlocks s.levels)) (h' : Tiles P (freeBlocks s'.levels))
    (hc : Coalesced pmmMaxOrder (freeBlocks s.levels)) (hc' : Coalesced pmmMaxOrder (freeBlocks s'.levels))
    (b : Block) : OnFreeList s b ↔ OnFreeList s' b := by
  have hiff := h.mem_iff_of_coalesced h' hc hc' (b := b) (fun b hb => (mem_freeBlocks.mp hb).1)
    (fun b hb => (mem_freeBlocks.mp hb).1)
  rwa [mem_freeBlocks, mem_freeBlocks] at hiff

/-- From a state of `pmm_init` without free buddies, no run of valid calls leaves two free buddies, and
when everything has been freed the free lists hold the blocks they held at first. -/
theorem pmm_run_coalesced {hhdm : ℕ} {map : List MemmapEntry} (hmap : MemmapOk hhdm map)
    {s₀ s : PmmState} {out : List Block} {ops : List Op} (h₀ : pmmInit hhdm map = some s₀)
    (hc₀ : NoFreeBuddies s₀) (hrun : Run.run (step hhdm) (s₀, []) ops = some (s, out)) :
    NoFreeBuddies s ∧ (out = [] → ∀ b, OnFreeList s b ↔ OnFreeList s₀ b) := by
  obtain ⟨hown, hcoal, -⟩ := run_free_tiles hmap h₀ hc₀ hrun
  refine ⟨noFreeBuddies_iff.mpr hcoal, ?_⟩
  rintro rfl
  exact onFreeList_iff_of_tiles hown.tiles (pmmInit_owned hmap h₀).tiles hcoal (noFreeBuddies_iff.mp hc₀)

def freedOps : List Op :=
  [.alloc 0, .alloc 0, .free 0x4000, .alloc 2, .free 0x2000, .free 0x8000]

theorem pmm_run_coalesced_sample :
    MemmapOk archKernelMinVirt sampleMap ∧
      ∃ s₀ s, pmmInit archKernelMinVirt sampleMap = some s₀ ∧ NoFreeBuddies s₀ ∧
        Run.run (step archKernelMinVirt) (s₀, []) freedOps = some (s, []) ∧
          NoFreeBuddies s ∧ ∀ b, OnFreeList s b ↔ OnFreeList s₀ b := by
  obtain ⟨s₀, h₀, hc₀, ⟨s, out⟩, hrun, rfl⟩ : ∃ s₀ ∈ pmmInit archKernelMinVirt sampleMap,
      NoFreeBuddies s₀ ∧ ∃ x ∈ Run.run (step archKernelMinVirt) (s₀, []) freedOps, x.2 = [] := by decide
  obtain ⟨hc, hall⟩ := pmm_run_coalesced sampleMap_ok h₀ hc₀ hrun
  exact ⟨sampleMap_ok, s₀, s, h₀, hc₀, hrun, hc, hall rfl⟩

/-- A page is left outstanding, in two ways. -/
def keepOps : List Op := [.alloc 0, .alloc 0, .free 0x4000]

def keepOps' : List Op := [.alloc 0, .alloc 0, .alloc 2, .free 0x4000, .free 0x8000]

section

variable {hhdm : ℕ} {map : List MemmapEntry} {s₀ s s' : PmmState} {out out' : List Block}
  {ops ops' : List Op}

/-- Memory is never too fragmented: `pmm_alloc` finds a block whenever one of the order fits into the free
pages. -/
theorem pmm_alloc_complete (hmap : MemmapOk hhdm map) (h₀ : pmmInit hhdm map = some s₀)
    (hc₀ : NoFreeBuddies s₀) (hrun : Run.run (step hhdm) (s₀, []) ops = some (s, out)) {order : ℕ}
    (ho : order ≤ pmmMaxOrder) :
    (pmmAlloc s order).isSome ↔
      ∃ n, 2 ^ order ∣ n ∧ ∀ p, n ≤ p → p < n + 2 ^ order → p ∈ managed map ∧ ∀ c ∈ out, p ∉ c := by
  obtain ⟨hown, hcoal, htiles⟩ := run_free_tiles hmap h₀ hc₀ hrun
  cases hi : findLevel s.levels (pmmMaxOrder + 1 - order) order with
  | none =>
    refine iff_of_false (by simp [pmmAlloc, hi]) fun ⟨n, hn, hfree⟩ => ?_
    have hpos := Nat.two_pow_pos order
    obtain ⟨b, hb, hnb⟩ := (htiles.cover n).mp (hfree n le_rfl (by omega))
    have hle := htiles.order_le_of_coalesced hcoal (c := ⟨n, order⟩) hn (fun p hp => hfree p hp.1 hp.2) ho
      hb hnb (Block.head_mem _)
    obtain ⟨hbo, hmem⟩ := mem_freeBlocks.mp hb
    rw [findLevel_eq_none hi b.order hle (by omega)] at hmem
    exact absurd hmem List.not_mem_nil
  | some i =>
    obtain ⟨n, s', halloc, hown'⟩ := pmmAlloc_owned hown ho hi
    refine iff_of_true (by rw [halloc]; rfl)
      ⟨n, hown'.tiles.aligned _ List.mem_cons_self, fun p h1 h2 => ?_⟩
    have hp : p ∈ (⟨n, order⟩ : Block) := ⟨h1, h2⟩
    exact ⟨(hown'.tiles.cover p).mpr ⟨_, List.mem_cons_self, hp⟩, fun c hc =>
      hown'.tiles.not_mem_of_cons (List.mem_append_left _ hc) hp⟩

theorem pmm_alloc_complete_sample :
    ∃ s₀ s, pmmInit archKernelMinVirt sampleMap = some s₀ ∧
      Run.run (step archKernelMinVirt) (s₀, []) keepOps = some (s, [⟨2, 0⟩]) ∧
        ((pmmAlloc s 3).isSome ↔
          ∃ n, 2 ^ 3 ∣ n ∧ ∀ p, n ≤ p → p < n + 2 ^ 3 →
            p ∈ managed sampleMap ∧ ∀ c ∈ [(⟨2, 0⟩ : Block)], p ∉ c) := by
  obtain ⟨s₀, h₀, hc₀, ⟨s, out⟩, hs, rfl⟩ : ∃ s₀ ∈ pmmInit archKernelMinVirt sampleMap,
      NoFreeBuddies s₀ ∧ ∃ x ∈ Run.run (step archKernelMinVirt) (s₀, []) keepOps, x.2 = [⟨2, 0⟩] := by
    decide
  exact ⟨s₀, s, h₀, hs, pmm_alloc_complete sampleMap_ok h₀ hc₀ hs (by decide)⟩

/-- The free lists do not remember the order of the calls: they are determined by the pages that are
outstanding. -/
theorem pmm_free_blocks_determined (hmap : MemmapOk hhdm map) (h₀ : pmmInit hhdm map = some s₀)
    (hc₀ : NoFreeBuddies s₀) (hrun : Run.run (step hhdm) (s₀, []) ops = some (s, out))
    (hrun' : Run.run (step hhdm) (s₀, []) ops' = some (s', out'))
    (hout : ∀ p, (∃ c ∈ out, p ∈ c) ↔ ∃ c ∈ out', p ∈ c) (b : Block) :
    OnFreeList s b ↔ OnFreeList s' b := by
  obtain ⟨-, hcoal, htiles⟩ := run_free_tiles hmap h₀ hc₀ hrun
  obtain ⟨-, hcoal', htiles'⟩ := run_free_tiles hmap h₀ hc₀ hrun'
  have hpages : {p | p ∈ managed map ∧ ∀ c ∈ out, p ∉ c} = {p | p ∈ managed map ∧ ∀ c ∈ out', p ∉ c} := by
    ext p
    have := not_congr (hout p)
    push Not at this
    exact and_congr_right fun _ => this
  rw [hpages] at htiles
  exact onFreeList_iff_of_tiles htiles htiles' hcoal hcoal' b

theorem pmm_free_blocks_determined_sample :
    ∃ s₀ s s', pmmInit archKernelMinVirt sampleMap = some s₀ ∧
      Run.run (step archKernelMinVirt) (s₀, []) keepOps = some (s, [⟨2, 0⟩]) ∧
        Run.run (step archKernelMinVirt) (s₀, []) keepOps' = some (s', [⟨2, 0⟩]) ∧
          ∀ b, OnFreeList s b ↔ OnFreeList s' b := by
  obtain ⟨s₀, h₀, hc₀, ⟨⟨s, out⟩, hs, rfl⟩, ⟨s', out'⟩, hs', rfl⟩ :
      ∃ s₀ ∈ pmmInit archKernelMinVirt sampleMap, NoFreeBuddies s₀ ∧
        (∃ x ∈ Run.run (step archKernelMinVirt) (s₀, []) keepOps, x.2 = [⟨2, 0⟩]) ∧
          ∃ x ∈ Run.run (step archKernelMinVirt) (s₀, []) keepOps', x.2 = [⟨2, 0⟩] := by decide
  exact ⟨s₀, s, s', h₀, hs, hs', pmm_free_blocks_determined sampleMap_ok h₀ hc₀ hs hs' fun _ => Iff.rfl⟩

end

end LykOS.Pmm
