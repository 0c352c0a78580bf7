import LykOS.Mm.Pmm.Model
import LykOS.Lib.Tiling

/-!
# Ownership of physical pages

`Owned P s out hand`: the free blocks of `s`, the outstanding blocks `out` and the blocks `hand` that an
operation holds between two statements tile the managed pages `P`, and the records of the free and of the
outstanding blocks say what these are. Nothing is said about the other records of a managed page: after a
merge the right half keeps a stale one. It is never read, because the buddy of a tile starts at the head of
another tile (`Tiles.buddy_head`).
-/

namespace LykOS.Pmm

open Tiling Function
open List hiding min

theorem pmmOrderToPagecount_eq (k : ℕ) : pmmOrderToPagecount k = 2 ^ k := Nat.one_shiftLeft k

def freeBlocks (levels : ℕ → List ℕ) : List Block :=
  (Pool.entries (pmmMaxOrder + 1) levels).map fun x => ⟨x.1, x.2⟩

theorem mem_freeBlocks {levels : ℕ → List ℕ} {b : Block} :
    b ∈ freeBlocks levels ↔ b.order ≤ pmmMaxOrder ∧ b.head ∈ levels b.order := by
  unfold freeBlocks
  rw [← Nat.lt_succ_iff, ← Pool.mem_entries, mem_map]
  constructor
  · rintro ⟨x, hx, rfl⟩
    exact hx
  · intro h
    exact ⟨_, h, rfl⟩

structure Owned (P : Set ℕ) (s : PmmState) (out hand : List Block) : Prop where
  tiles : Tiles P (hand ++ (out ++ freeBlocks s.levels))
  lt_count : ∀ p ∈ P, p < s.blockCount
  addr_eq : ∀ i < s.blockCount, (s.blocks i).addr = archPageGran * i
  free_record : ∀ b ∈ freeBlocks s.levels,
    (s.blocks b.head).free = true ∧ (s.blocks b.head).order = b.order
  out_record : ∀ b ∈ out, (s.blocks b.head).free = false ∧ (s.blocks b.head).order = b.order
  out_order : ∀ b ∈ out, b.order ≤ pmmMaxOrder
  unmanaged : ∀ i < s.blockCount, i ∉ P → (s.blocks i).free = false

namespace Owned

variable {P : Set ℕ} {s : PmmState} {out hand : List Block} {b : Block}

theorem head_lt (h : Owned P s out hand) (hb : b ∈ hand ++ (out ++ freeBlocks s.levels)) :
    b.head < s.blockCount := h.lt_count _ (h.tiles.mem_of_head hb)

theorem not_mem_level (h : Owned P s out (b :: hand)) :
    ∀ k < pmmMaxOrder + 1, b.head ∉ s.levels k := by
  intro k hk hmem
  have hc : (⟨b.head, k⟩ : Block) ∈ freeBlocks s.levels :=
    mem_freeBlocks.mpr ⟨Nat.lt_succ_iff.mp hk, hmem⟩
  exact h.tiles.not_mem_of_cons (c := ⟨b.head, k⟩) (by simp [hc]) b.head_mem
    (Block.head_mem ⟨b.head, k⟩)

theorem listRemove (h : Owned P s out hand) (hb : b ∈ freeBlocks s.levels) :
    ∃ s', s.listRemove b.order b.head = some s' ∧ s'.blockCount = s.blockCount ∧
      Owned P s' out (b :: hand) := by
  obtain ⟨ho, hm⟩ := mem_freeBlocks.mp hb
  set l := update s.levels b.order ((s.levels b.order).erase b.head) with hl
  have hperm : (freeBlocks s.levels).Perm (b :: freeBlocks l) :=
    (Pool.entries_erase s.levels (Nat.lt_succ_iff.mpr ho) hm).map _
  have htiles : Tiles P ((b :: hand) ++ (out ++ freeBlocks l)) := by
    refine h.tiles.perm (((hperm.append_left out).append_left hand).trans ?_)
    rw [← append_assoc, ← append_assoc]
    exact perm_middle
  refine ⟨{ s with levels := l }, ?_, rfl, ⟨htiles, h.lt_count, h.addr_eq, ?_, h.out_record,
    h.out_order, h.unmanaged⟩⟩
  · rw [PmmState.listRemove, Pool.remove_eq (Nat.lt_succ_iff.mpr ho) hm]
    rfl
  · exact fun c hc => h.free_record c (hperm.mem_iff.mpr (mem_cons_of_mem _ hc))

theorem update_block (h : Owned P s out (b :: hand)) (r : PmmBlock) {c : Block}
    (hc : c ∈ out ∨ c ∈ freeBlocks s.levels) :
    update s.blocks b.head r c.head = s.blocks c.head := by
  apply update_of_ne
  intro e
  have hcL : c ∈ hand ++ (out ++ freeBlocks s.levels) := by
    rcases hc with hc | hc <;> simp [hc]
  exact h.tiles.not_mem_of_cons hcL (e ▸ b.head_mem) c.head_mem

theorem update_addr (h : Owned P s out hand) (n k : ℕ) (f : Bool) :
    ∀ i < s.blockCount,
      (update s.blocks n ⟨(s.blocks n).addr, k, f⟩ i).addr = archPageGran * i := by
  intro i hi
  by_cases e : i = n
  · subst e
    rw [update_self]
    exact h.addr_eq i hi
  · rw [update_of_ne e]
    exact h.addr_eq i hi

theorem update_unmanaged (h : Owned P s out hand) {n : ℕ} (hn : n ∈ P) (r : PmmBlock) :
    ∀ i < s.blockCount, i ∉ P → (update s.blocks n r i).free = false := by
  intro i hi hP
  have hne : i ≠ n := fun e => hP (e.symm ▸ hn)
  rw [update_of_ne hne]
  exact h.unmanaged i hi hP

theorem putFree (h : Owned P s out (b :: hand)) (ho : b.order ≤ pmmMaxOrder) :
    ∃ s', s.putFree b.head b.order = some s' ∧ s'.blockCount = s.blockCount ∧
      Owned P s' out hand := by
  have hlt : b.head < s.blockCount := h.head_lt (by simp)
  have hP : b.head ∈ P := h.tiles.mem_of_head (by simp)
  set r : PmmBlock := ⟨(s.blocks b.head).addr, b.order, true⟩ with hr
  set l := update s.levels b.order (s.levels b.order ++ [b.head]) with hl
  have hperm : (freeBlocks l).Perm (b :: freeBlocks s.levels) :=
    (Pool.entries_append s.levels b.head (Nat.lt_succ_iff.mpr ho)).map _
  have htiles : Tiles P (hand ++ (out ++ freeBlocks l)) := by
    refine h.tiles.perm (List.Perm.symm (((hperm.append_left out).append_left hand).trans ?_))
    rw [← append_assoc, ← append_assoc]
    exact perm_middle
  have hfree : ∀ c ∈ freeBlocks l, (update s.blocks b.head r c.head).free = true ∧
      (update s.blocks b.head r c.head).order = c.order := by
    intro c hc
    rcases mem_cons.mp (hperm.mem_iff.mp hc) with rfl | hc
    · rw [update_self]
      exact ⟨rfl, rfl⟩
    · rw [h.update_block r (Or.inr hc)]
      exact h.free_record c hc
  have hout : ∀ c ∈ out, (update s.blocks b.head r c.head).free = false ∧
      (update s.blocks b.head r c.head).order = c.order := by
    intro c hc
    rw [h.update_block r (Or.inl hc)]
    exact h.out_record c hc
  refine ⟨⟨update s.blocks b.head r, s.blockCount, l⟩, ?_, rfl, ⟨htiles, h.lt_count,
    h.update_addr _ _ _, hfree, hout, h.out_order, h.update_unmanaged hP r⟩⟩
  have ha : Pool.append (pmmMaxOrder + 1) s.levels b.order b.head = some l :=
    Pool.append_eq (Nat.lt_succ_iff.mpr ho) h.not_mem_level
  simp only [PmmState.putFree, PmmState.setBlock, if_pos hlt, PmmState.listAppend,
    Option.bind_eq_bind, Option.bind_some, ha, Option.map_some, hr]

theorem setBlock_out (h : Owned P s out (b :: hand)) (ho : b.order ≤ pmmMaxOrder) :
    ∃ s', s.setBlock b.head b.order false = some s' ∧ s'.block b.head =
      some ⟨archPageGran * b.head, b.order, false⟩ ∧ Owned P s' (b :: out) hand := by
  have hlt : b.head < s.blockCount := h.head_lt (by simp)
  have hP : b.head ∈ P := h.tiles.mem_of_head (by simp)
  set r : PmmBlock := ⟨(s.blocks b.head).addr, b.order, false⟩ with hr
  have htiles : Tiles P (hand ++ ((b :: out) ++ freeBlocks s.levels)) :=
    h.tiles.perm perm_middle.symm
  have hfree : ∀ c ∈ freeBlocks s.levels, (update s.blocks b.head r c.head).free = true ∧
      (update s.blocks b.head r c.head).order = c.order := by
    intro c hc
    rw [h.update_block r (Or.inr hc)]
    exact h.free_record c hc
  have hout : ∀ c ∈ b :: out, (update s.blocks b.head r c.head).free = false ∧
      (update s.blocks b.head r c.head).order = c.order := by
    intro c hc
    rcases mem_cons.mp hc with rfl | hc
    · rw [update_self]
      exact ⟨rfl, rfl⟩
    · rw [h.update_block r (Or.inl hc)]
      exact h.out_record c hc
  refine ⟨{ s with blocks := update s.blocks b.head r }, ?_, ?_, ⟨htiles, h.lt_count,
    h.update_addr _ _ _, hfree, hout, forall_mem_cons.mpr ⟨ho, h.out_order⟩, h.update_unmanaged hP r⟩⟩
  · rw [PmmState.setBlock, if_pos hlt]
  · simp only [PmmState.block, if_pos hlt, update_self, hr, h.addr_eq _ hlt]

theorem take_back (h : Owned P s out hand) (hb : b ∈ out) : Owned P s (out.erase b) (b :: hand) := by
  have hperm := perm_cons_erase hb
  have htiles : Tiles P ((b :: hand) ++ (out.erase b ++ freeBlocks s.levels)) :=
    h.tiles.perm (((hperm.append_right _).append_left hand).trans perm_middle)
  exact ⟨htiles, h.lt_count, h.addr_eq, h.free_record,
    fun c hc => h.out_record c (mem_of_mem_erase hc),
    fun c hc => h.out_order c (mem_of_mem_erase hc), h.unmanaged⟩

/-! ## Splitting and merging -/

theorem splitBlock {order n i : ℕ} {s : PmmState} (ho : order ≤ i) (hi : i ≤ pmmMaxOrder)
    (h : Owned P s out (⟨n, i⟩ :: hand)) :
    ∃ s', splitBlock order n i s = some s' ∧ Owned P s' out (⟨n, order⟩ :: hand) := by
  induction i generalizing s with
  | zero =>
    obtain rfl : order = 0 := by omega
    exact ⟨s, rfl, h⟩
  | succ i ih =>
    by_cases hlt : order < i + 1
    · -- the right half goes to its list, the left half stays in hand
      have hn : n < s.blockCount := h.head_lt (b := ⟨n, i + 1⟩) (by simp)
      have hdvd : 2 ^ (i + 1) ∣ n := h.tiles.aligned ⟨n, i + 1⟩ (by simp)
      have hr : (s.blocks n).addr / archPageGran ^^^ pmmOrderToPagecount i = n + 2 ^ i := by
        rw [h.addr_eq n hn, Nat.mul_div_cancel_left n (by decide : 0 < archPageGran),
          pmmOrderToPagecount_eq, xor_two_pow_of_dvd hdvd]
      have hsplit : Owned P s out (⟨n + 2 ^ i, i⟩ :: ⟨n, i⟩ :: hand) :=
        ⟨h.tiles.split.perm (List.Perm.swap _ _ _), h.lt_count, h.addr_eq, h.free_record,
          h.out_record, h.out_order, h.unmanaged⟩
      obtain ⟨s₁, hput, -, h₁⟩ := hsplit.putFree (show i ≤ pmmMaxOrder by omega)
      obtain ⟨s', hs', h'⟩ := ih (by omega) (by omega) h₁
      refine ⟨s', ?_, h'⟩
      rw [Pmm.splitBlock, if_pos hlt, PmmState.block, if_pos hn]
      simp only [Option.bind_eq_bind, Option.bind_some, hr, hput, hs']
    · obtain rfl : order = i + 1 := by omega
      exact ⟨s, by rw [Pmm.splitBlock, if_neg hlt], h⟩

theorem buddy_free (h : Owned P s out [b]) (hlt : b.buddy < s.blockCount)
    (hfree : (s.blocks b.buddy).free = true) (hord : (s.blocks b.buddy).order = b.order) :
    (⟨b.buddy, b.order⟩ : Block) ∈ freeBlocks s.levels := by
  have hP : b.buddy ∈ P := by
    by_contra hP
    rw [h.unmanaged _ hlt hP] at hfree
    cases hfree
  have htiles : Tiles P (b :: (out ++ freeBlocks s.levels)) := h.tiles
  obtain ⟨c, hc, hhead, -⟩ := htiles.buddy_head hP
  rw [← hhead] at hfree hord
  rcases mem_append.mp hc with hc | hc
  · rw [(h.out_record c hc).1] at hfree
    cases hfree
  · rw [(h.free_record c hc).2] at hord
    rw [← hhead, ← hord]
    exact hc

theorem mergeBlock {n i idx : ℕ} {s : PmmState} (hn : n = pmmMaxOrder - i) (hi : i ≤ pmmMaxOrder)
    (h : Owned P s out [⟨idx, i⟩]) : ∃ s' idx' i', mergeBlock n s idx i = some (s', idx', i') ∧
      i' ≤ pmmMaxOrder ∧ Owned P s' out [⟨idx', i'⟩] := by
  induction n generalizing i idx s with
  | zero => exact ⟨s, idx, i, rfl, hi, h⟩
  | succ n ih =>
    set b : Block := ⟨idx, i⟩ with hb
    have hx : idx ^^^ pmmOrderToPagecount i = b.buddy := by rw [pmmOrderToPagecount_eq]; rfl
    by_cases hlt : s.blockCount ≤ b.buddy
    · exact ⟨s, idx, i, by simp only [Pmm.mergeBlock, hx, if_pos hlt], hi, h⟩
    · have hlt' : b.buddy < s.blockCount := by omega
      by_cases hf : (s.blocks b.buddy).free = true ∧ (s.blocks b.buddy).order = i
      · obtain ⟨s₁, hrem, hcnt, h₁⟩ := h.listRemove (h.buddy_free hlt' hf.1 hf.2)
        have hmerge : Owned P s₁ out [⟨min idx b.buddy, i + 1⟩] :=
          ⟨(h₁.tiles.perm (List.Perm.swap _ _ _)).merge, h₁.lt_count, h₁.addr_eq, h₁.free_record,
            h₁.out_record, h₁.out_order, h₁.unmanaged⟩
        obtain ⟨s', idx', i', hs', hi', h'⟩ := ih (i := i + 1) (by omega) (by omega) hmerge
        refine ⟨s', idx', i', ?_, hi', h'⟩
        have hmin : (if idx < b.buddy then idx else b.buddy) = min idx b.buddy := by
          split_ifs <;> omega
        have hrem' : s.listRemove i b.buddy = some s₁ := hrem
        simp only [Pmm.mergeBlock, hx, if_neg hlt, PmmState.block, if_pos hlt',
          Option.bind_eq_bind, Option.bind_some, hf.1, hf.2, and_self, if_true, hrem', hmin, hs']
      · refine ⟨s, idx, i, ?_, hi, h⟩
        simp only [Pmm.mergeBlock, hx, if_neg hlt, PmmState.block, if_pos hlt',
          Option.bind_eq_bind, Option.bind_some, if_neg hf]

end Owned

/-! ## The operations -/

theorem findLevel_spec {levels : ℕ → List ℕ} : ∀ {n i k : ℕ}, findLevel levels n i = some k →
    i ≤ k ∧ k < i + n ∧ levels k ≠ [] := by
  intro n
  induction n with
  | zero => intro i k h; cases h
  | succ n ih =>
    intro i k h
    rw [findLevel] at h
    split_ifs at h with he
    · obtain ⟨h1, h2, h3⟩ := ih h
      exact ⟨by omega, by omega, h3⟩
    · cases h
      exact ⟨le_rfl, by omega, he⟩

theorem findLevel_eq_none {levels : ℕ → List ℕ} : ∀ {n i : ℕ}, findLevel levels n i = none →
    ∀ k, i ≤ k → k < i + n → levels k = [] := by
  intro n
  induction n with
  | zero => intro i _ k h1 h2; omega
  | succ n ih =>
    intro i h k h1 h2
    rw [findLevel] at h
    split_ifs at h with he
    rcases Nat.eq_or_lt_of_le h1 with rfl | h1
    · exact he
    · exact ih h k h1 (by omega)

variable {P : Set ℕ} {s : PmmState} {out : List Block}

theorem pmmAlloc_owned (h : Owned P s out []) {order i : ℕ} (ho : order ≤ pmmMaxOrder)
    (hi : findLevel s.levels (pmmMaxOrder + 1 - order) order = some i) :
    ∃ n s', pmmAlloc s order = some (archPageGran * n, s') ∧
      Owned P s' (⟨n, order⟩ :: out) [] := by
  obtain ⟨h1, h2, h3⟩ := findLevel_spec hi
  obtain ⟨n, l, hl⟩ := exists_cons_of_ne_nil h3
  have hfree : (⟨n, i⟩ : Block) ∈ freeBlocks s.levels :=
    mem_freeBlocks.mpr ⟨show i ≤ pmmMaxOrder by omega, by rw [hl]; exact mem_cons_self⟩
  obtain ⟨s₁, hrem, -, h₁⟩ := h.listRemove hfree
  obtain ⟨s₂, hsplit, h₂⟩ := h₁.splitBlock h1 (by omega)
  obtain ⟨s₃, hset, hrec, h₃⟩ := h₂.setBlock_out ho
  refine ⟨n, s₃, ?_, h₃⟩
  have hg : (guard (order ≤ pmmMaxOrder) : Option Unit) = some () := if_pos ho
  simp only [pmmAlloc, hg, hi, hl, head?_cons, hrem, hsplit, hset, hrec, Option.bind_eq_bind,
    Option.bind_some, Option.pure_def]

theorem pmmFree_owned {hhdm : ℕ} (h : Owned P s out []) {b : Block} (hb : b ∈ out)
    (hhdm_le : archPageGran * b.head < hhdm) :
    ∃ s', pmmFree hhdm s (archPageGran * b.head) = some s' ∧ Owned P s' (out.erase b) [] := by
  have hlt : b.head < s.blockCount := h.head_lt (by simp [hb])
  have hrec := h.out_record b hb
  obtain ⟨s₁, idx, i, hmerge, hi, h₁⟩ := (h.take_back hb).mergeBlock rfl (h.out_order b hb)
  obtain ⟨s₂, hput, -, h₂⟩ := h₁.putFree hi
  refine ⟨s₂, ?_, h₂⟩
  have hg : (guard (archPageGran * b.head < hhdm) : Option Unit) = some () := if_pos hhdm_le
  have hg' : (guard ((s.blocks b.head).free = false) : Option Unit) = some () := if_pos hrec.1
  have hdiv : archPageGran * b.head / archPageGran = b.head :=
    Nat.mul_div_cancel_left _ (by decide)
  simp only [pmmFree, hg, hdiv, PmmState.block, if_pos hlt, hg', hrec.2, hmerge, hput,
    Option.bind_eq_bind, Option.bind_some]

end LykOS.Pmm
