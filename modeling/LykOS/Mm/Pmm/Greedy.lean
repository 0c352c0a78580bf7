import LykOS.Mm.Pmm.Init

/-!
# The greedy tiling of `pmm_init`

The loop over an entry tries the largest order first and starts over with it behind each block. It ends: a
block of order 0 can be placed wherever the entry has not ended, so each page costs at most one round for
every order (`fillEntry_total`). And each block is the largest that can be placed where it is
(`fillEntry_largest`).
-/

namespace LykOS.Pmm

open Tiling

/-- The block can be placed before page `m`, and no larger one can at the same page. -/
def Largest (m : ℕ) (b : Block) : Prop :=
  Placeable m b ∧ ∀ k ≤ pmmMaxOrder, Placeable m ⟨b.head, k⟩ → k ≤ b.order

theorem onFreeList_of_putFree {s s' : PmmState} {n order : ℕ} (h : s.putFree n order = some s')
    {b : Block} (hb : OnFreeList s' b) : OnFreeList s b ∨ b = ⟨n, order⟩ := by
  simp only [PmmState.putFree, PmmState.setBlock, PmmState.listAppend, Option.bind_eq_bind,
    Option.bind_eq_some_iff, Option.ite_none_right_eq_some, Option.map_eq_some_iff, Pool.append] at h
  obtain ⟨_, ⟨-, hs⟩, _, ⟨-, hl⟩, hs'⟩ := h
  cases hs
  cases hl
  cases hs'
  obtain ⟨ho, hmem⟩ := hb
  by_cases hk : b.order = order
  · simp only [hk, Function.update_self, List.mem_append, List.mem_singleton] at hmem
    rcases hmem with hmem | rfl
    · exact Or.inl ⟨ho, hk ▸ hmem⟩
    · exact Or.inr (hk ▸ rfl)
  · simp only [Function.update_of_ne hk] at hmem
    exact Or.inl ⟨ho, hmem⟩

theorem fillEntry_largest {m : ℕ} (hb : archPageGran * m + 2 ^ 22 < 2 ^ 64) :
    ∀ {fuel n order : ℕ} {s s' : PmmState}, n ≤ m → order ≤ pmmMaxOrder →
      (∀ k ≤ pmmMaxOrder, Placeable m ⟨n, k⟩ → k ≤ order) →
      fillEntry (archPageGran * m) fuel (archPageGran * n) order s = some s' →
      ∀ b, OnFreeList s' b → OnFreeList s b ∨ n ≤ b.head ∧ Largest m b := by
  intro fuel
  induction fuel with
  | zero => intro n order s s' _ _ _ h; cases h
  | succ fuel ih =>
    intro n order s s' hle ho htried h b hmem
    rcases Nat.eq_or_lt_of_le hle with rfl | hlt
    · rw [fillEntry_of_eq] at h
      cases h
      exact Or.inl hmem
    · rw [fillEntry_succ hb hlt ho] at h
      split_ifs at h with hplace hzero
      · obtain ⟨s₁, hput, h⟩ := Option.bind_eq_some_iff.mp h
        rcases ih hplace.2 le_rfl (fun k hk _ => hk) h b hmem with hold | ⟨hhead, hlargest⟩
        · rcases onFreeList_of_putFree hput hold with hold | rfl
          · exact Or.inl hold
          · exact Or.inr ⟨le_rfl, hplace, htried⟩
        · exact Or.inr ⟨Nat.le_trans (Nat.le_add_right _ _) hhead, hlargest⟩
      · refine ih hle (by omega) (fun k hk hkp => ?_) h b hmem
        have hne : k ≠ order := by
          rintro rfl
          exact hplace hkp
        have := htried k hk hkp
        omega

theorem fillEntry_total {m : ℕ} (hb : archPageGran * m + 2 ^ 22 < 2 ^ 64) :
    ∀ {fuel n order : ℕ} {P : Set ℕ} {s : PmmState}, n ≤ m → order ≤ pmmMaxOrder →
      (∀ p, n ≤ p → p < m → p ∉ P) → m ≤ s.blockCount → Owned P s [] [] → 0 < fuel →
      (pmmMaxOrder + 1) * (m - n) + order < fuel + pmmMaxOrder →
        ∃ s', fillEntry (archPageGran * m) fuel (archPageGran * n) order s = some s' := by
  intro fuel
  induction fuel with
  | zero => intro n order P s _ _ _ _ _ hpos; exact absurd hpos (Nat.lt_irrefl 0)
  | succ fuel ih =>
    intro n order P s hle ho hnew hm hown _ hfuel
    rcases Nat.eq_or_lt_of_le hle with rfl | hlt
    · exact ⟨s, fillEntry_of_eq _ _ _ _⟩
    · rw [fillEntry_succ hb hlt ho]
      by_cases hplace : Placeable m ⟨n, order⟩
      · obtain ⟨s₁, hput, hcnt, hown₁, hnew₁⟩ := hown.place hplace ho hnew hm
        have hone : 0 < 2 ^ order := Nat.two_pow_pos order
        have hpages : m - (n + 2 ^ order) + 1 ≤ m - n := by omega
        have hrounds := Nat.mul_le_mul_left (pmmMaxOrder + 1) hpages
        rw [Nat.mul_add, Nat.mul_one] at hrounds
        rw [if_pos hplace, hput, Option.bind_some]
        exact ih hplace.2 le_rfl hnew₁ (hcnt ▸ hm) hown₁ (by omega) (by omega)
      · -- one page can be placed wherever the entry has not ended
        have hzero : order ≠ 0 := by
          rintro rfl
          exact hplace ⟨one_dvd n, hlt⟩
        have hrounds : pmmMaxOrder + 1 ≤ (pmmMaxOrder + 1) * (m - n) :=
          Nat.le_mul_of_pos_right _ (by omega)
        rw [if_neg hplace, if_neg hzero]
        exact ih hle (by omega) hnew hm hown (by omega) (by omega)

/-! ## The loop over the entries -/

section Entries

variable {hhdm : ℕ} {map : List MemmapEntry} {last a : MemmapEntry}
  (hmap : MapFits hhdm map) (hl : lastUsableEntry map = some last)
  (ha : arrayEntry map (blockCountOf last) = some a)
  (hne : ∀ e ∈ usableEntries map, 0 < e.length)

variable {e : MemmapEntry}

include hmap hne in
theorem entry_eq_of_base {f : MemmapEntry} (he : e ∈ usableEntries map) (hf : f ∈ usableEntries map)
    (hbase : e.base = f.base) : e = f := by
  by_contra hef
  have hpe := hne e he
  have hpf := hne f hf
  rcases hmap.disjoint he hf hef with h | h <;> omega

include hmap ha hne in
theorem firstPage_le_endPage (he : e ∈ usableEntries map) :
    firstPage a (blockCountOf last) e ≤ endPage e := by
  refine Nat.div_le_div_right ?_
  split_ifs with hbase
  · have hsz := arraySize_le hmap ha
    rw [entry_eq_of_base hmap hne he (arrayEntry_spec ha).1 hbase]
    omega
  · exact Nat.le_add_right _ _

include hmap in
theorem pages_le (he : e ∈ usableEntries map) (c : ℕ) :
    endPage e - firstPage a c e ≤ e.length / archPageGran := by
  have hend := hmap.end_eq he
  have hfirst : e.base ≤ archPageGran * firstPage a c e := by
    rw [firstPage_eq hmap he]
    split_ifs
    · exact Nat.le_add_right _ _
    · exact le_rfl
  rw [Nat.le_div_iff_mul_le (by decide), Nat.mul_comm, Nat.mul_sub]
  omega

include hmap hl ha hne in
theorem initEntry_total {pre post : List MemmapEntry} {s : PmmState} (hsplit : map = pre ++ e :: post)
    (hc : s.blockCount = blockCountOf last)
    (hown : Owned {p | (∃ f ∈ usableEntries pre, InEntry f p) ∧ ¬ InArray map p} s [] []) :
    ∃ s', initEntry hhdm (u64 (a.base + hhdm)) s e = some s' := by
  by_cases hu : e.type = .usable
  · have hum : usableEntries map = usableEntries pre ++ e :: usableEntries post := by
      rw [hsplit]; simp [usableEntries, hu]
    have he : e ∈ usableEntries map := by rw [hum]; simp
    have hend := hmap.fits e he
    rw [← hmap.end_eq he] at hend
    have hrounds := Nat.mul_le_mul_left (pmmMaxOrder + 1)
      (pages_le (a := a) hmap he (blockCountOf last))
    rw [initEntry_eq hmap ha he hc]
    exact fillEntry_total hend (firstPage_le_endPage hmap ha hne he) le_rfl
      (new_pages hmap hl ha hum) (hc ▸ hmap.endPage_le hl he) hown (Nat.succ_pos _)
      (by rw [Nat.mul_comm (e.length / archPageGran)]; omega)
  · exact ⟨s, if_pos hu⟩

include hmap ha hne in
theorem initEntry_largest {s s' : PmmState} (he : e ∈ map) (hc : s.blockCount = blockCountOf last)
    (h : initEntry hhdm (u64 (a.base + hhdm)) s e = some s') {b : Block} (hb : OnFreeList s' b) :
    OnFreeList s b ∨ e ∈ usableEntries map ∧ firstPage a (blockCountOf last) e ≤ b.head ∧
      Largest (endPage e) b := by
  by_cases hu : e.type = .usable
  · have he : e ∈ usableEntries map := List.mem_filter.mpr ⟨he, by simpa using hu⟩
    have hend := hmap.fits e he
    rw [← hmap.end_eq he] at hend
    rw [initEntry_eq hmap ha he hc] at h
    exact (fillEntry_largest hend (firstPage_le_endPage hmap ha hne he) le_rfl (fun k hk _ => hk) h b
      hb).imp_right fun hnew => ⟨he, hnew⟩
  · rw [initEntry, if_pos hu] at h
    cases h
    exact Or.inl hb

include hmap hl ha hne in
theorem initEntries_greedy {post : List MemmapEntry} (pre : List MemmapEntry) {s : PmmState}
    (hsplit : map = pre ++ post) (hc : s.blockCount = blockCountOf last)
    (hown : Owned {p | (∃ f ∈ usableEntries pre, InEntry f p) ∧ ¬ InArray map p} s [] []) :
    ∃ s', post.foldlM (initEntry hhdm (u64 (a.base + hhdm))) s = some s' ∧
      Owned (managed map) s' [] [] ∧ ∀ b, OnFreeList s' b → OnFreeList s b ∨
        ∃ e ∈ usableEntries map, firstPage a (blockCountOf last) e ≤ b.head ∧ Largest (endPage e) b := by
  induction post generalizing pre s with
  | nil => exact ⟨s, rfl, initEntries_owned hmap hl ha pre hsplit hc hown rfl, fun b hb => Or.inl hb⟩
  | cons e post ih =>
    obtain ⟨s₁, h₁⟩ := initEntry_total hmap hl ha hne hsplit hc hown
    obtain ⟨hc₁, hown₁⟩ := initEntry_owned hmap hl ha hsplit hc hown h₁
    obtain ⟨s', h', hown', hlargest⟩ := ih (pre ++ [e]) (by rw [hsplit]; simp) hc₁ hown₁
    refine ⟨s', by rw [List.foldlM_cons, h₁]; exact h', hown', fun b hb => ?_⟩
    rcases hlargest b hb with hb | hb
    · exact (initEntry_largest hmap ha hne (by rw [hsplit]; simp) hc h₁ hb).imp_right
        fun hnew => ⟨e, hnew⟩
    · exact Or.inr hb

end Entries

/-! ## `pmm_init` -/

/-- The blocks on the free lists do not overlap, are aligned, and cover the managed pages; each of them is
the largest that is aligned at its page and ends inside its entry. -/
structure GreedyTiling (map : List MemmapEntry) (s : PmmState) : Prop where
  disjoint : ∀ b c, OnFreeList s b → OnFreeList s c → b ≠ c → ∀ p ∈ b, p ∉ c
  once : ∀ b, OnFreeList s b → (s.levels b.order).count b.head = 1
  aligned : ∀ b, OnFreeList s b → 2 ^ b.order ∣ b.head
  cover : ∀ p, p ∈ managed map ↔ ∃ b, OnFreeList s b ∧ p ∈ b
  largest : ∀ b, OnFreeList s b → ∃ e ∈ usableEntries map, InEntry e b.head ∧ Largest (endPage e) b

/-- `pmm_init` ends and leaves a greedy tiling, for a map whose usable entries are page-aligned, sorted,
disjoint and not empty, one of them with room for the `blocks` array, at an address that is not `NULL`. -/
theorem pmm_init_tiles {hhdm : ℕ} {map : List MemmapEntry} (hmap : MapFits hhdm map)
    (hne : ∀ e ∈ usableEntries map, 0 < e.length) {last : MemmapEntry}
    (hl : lastUsableEntry map = some last)
    (hroom : ∃ e ∈ usableEntries map, blockCountOf last * sizeofPmmBlock ≤ e.length)
    (hnull : ∀ e ∈ usableEntries map, u64 (e.base + hhdm) ≠ 0) :
    ∃ s, pmmInit hhdm map = some s ∧ GreedyTiling map s := by
  obtain ⟨a, ha⟩ : ∃ a, arrayEntry map (blockCountOf last) = some a := by
    obtain ⟨e, he, hlen⟩ := hroom
    refine Option.isSome_iff_exists.mp (List.find?_isSome.mpr ⟨e, (List.mem_filter.mp he).1, ?_⟩)
    simpa [hlen] using (List.mem_filter.mp he).2
  obtain ⟨s, hs, hown, hlargest⟩ := initEntries_greedy hmap hl ha hne [] (List.nil_append map).symm rfl
    (owned_start map (blockCountOf last))
  have hmem : ∀ b, OnFreeList s b ↔ b ∈ [] ++ ([] ++ freeBlocks s.levels) := fun b => mem_freeBlocks.symm
  refine ⟨s, ?_, ?_, ?_, ?_, ?_, ?_⟩
  · have hguard : guard (u64 (a.base + hhdm) ≠ 0) = some () :=
      (Option.guard_eq_some' _).mpr (hnull a (arrayEntry_spec ha).1)
    simp only [pmmInit, hl, ha, hguard, Option.bind_eq_bind, Option.bind_some]
    exact hs
  · intro b c hb hc hbc p hpb hpc
    exact hbc (hown.tiles.eq_of_mem ((hmem b).mp hb) ((hmem c).mp hc) hpb hpc)
  · exact fun b hb => List.count_eq_one_of_mem (hown.nodup_level hb.1) hb.2
  · exact fun b hb => hown.tiles.aligned b ((hmem b).mp hb)
  · intro p
    simpa only [hmem] using hown.tiles.cover p
  · intro b hb
    rcases hlargest b hb with hb | ⟨e, he, hfirst, hb⟩
    · cases hb.2
    · have hlt : b.head < endPage e := Nat.lt_of_lt_of_le b.head_mem.2 hb.1.2
      exact ⟨e, he, ((firstPage_le_iff hmap hl ha he).mp ⟨hfirst, hlt⟩).1, hb⟩

theorem pmm_init_tiles_sample :
    ∃ s, pmmInit archKernelMinVirt sampleMap = some s ∧ GreedyTiling sampleMap s :=
  have hl : lastUsableEntry sampleMap = some ⟨0x6000, 0x6000, .usable⟩ := rfl
  pmm_init_tiles ⟨by decide, by decide, by decide, by decide⟩ (by decide) hl (by decide) (by decide)

end LykOS.Pmm
