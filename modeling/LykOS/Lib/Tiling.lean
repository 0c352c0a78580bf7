import Mathlib.Data.Nat.Bitwise
import Mathlib.Data.List.Pairwise
import Mathlib.Data.List.Perm.Basic
import Mathlib.Tactic.Ring

/-!
# Tilings by aligned blocks

A block is a run of `2 ^ order` consecutive pages. A list of aligned, pairwise disjoint blocks that covers a
set of pages is a tiling of it (`Tiles`). Aligned blocks are nested or disjoint (`Block.le_of_mem`), so the
page at which the buddy of a tile would start is the head of another tile of at most that order
(`Tiles.buddy_head`). Splitting and merging tiles give tilings of the same pages. A set of pages has at most
one tiling that contains no two buddies below the largest order (`Tiles.mem_iff_of_coalesced`).
-/

namespace Tiling

open List hiding le_antisymm min not_le

/-- The run of `2 ^ order` pages from `head` on. -/
structure Block where
  head : ℕ
  order : ℕ
  deriving DecidableEq, Repr

namespace Block

instance : Membership ℕ Block := ⟨fun b p => b.head ≤ p ∧ p < b.head + 2 ^ b.order⟩

theorem mem_def {b : Block} {p : ℕ} : p ∈ b ↔ b.head ≤ p ∧ p < b.head + 2 ^ b.order := Iff.rfl

instance (p : ℕ) (b : Block) : Decidable (p ∈ b) := decidable_of_iff _ mem_def.symm

def Aligned (b : Block) : Prop := 2 ^ b.order ∣ b.head

instance : DecidablePred Aligned := fun b => inferInstanceAs (Decidable (2 ^ b.order ∣ b.head))

def buddy (b : Block) : ℕ := b.head ^^^ 2 ^ b.order

theorem head_mem (b : Block) : b.head ∈ b :=
  ⟨le_rfl, Nat.lt_add_of_pos_right (Nat.two_pow_pos _)⟩

theorem le_of_mem {b c : Block} (hb : b.Aligned) (hc : c.Aligned) (ho : b.order ≤ c.order) {p : ℕ}
    (hpb : p ∈ b) (hpc : p ∈ c) :
    c.head ≤ b.head ∧ b.head + 2 ^ b.order ≤ c.head + 2 ^ c.order := by
  obtain ⟨d, hd⟩ := Nat.exists_eq_add_of_le ho
  obtain ⟨x, hx⟩ := hb
  obtain ⟨y, hy⟩ := hc
  have hpos := Nat.two_pow_pos b.order
  have hpow : 2 ^ c.order = 2 ^ b.order * 2 ^ d := by rw [hd, pow_add]
  rw [hpow, mul_assoc] at hy
  rw [mem_def, hx] at hpb
  rw [mem_def, hy, hpow] at hpc
  -- both heads are multiples of the smaller size, so the bounds compare the factors
  have hyx : 2 ^ d * y < x + 1 := by
    have : 2 ^ b.order * (2 ^ d * y) < 2 ^ b.order * (x + 1) := by
      rw [Nat.mul_add]; omega
    exact lt_of_mul_lt_mul_left this (Nat.zero_le _)
  have hxy : x < 2 ^ d * y + 2 ^ d := by
    have : 2 ^ b.order * x < 2 ^ b.order * (2 ^ d * y + 2 ^ d) := by
      rw [Nat.mul_add]; omega
    exact lt_of_mul_lt_mul_left this (Nat.zero_le _)
  rw [hpow, hx, hy]
  refine ⟨Nat.mul_le_mul_left _ (by omega), ?_⟩
  calc 2 ^ b.order * x + 2 ^ b.order = 2 ^ b.order * (x + 1) := by ring
    _ ≤ 2 ^ b.order * (2 ^ d * y + 2 ^ d) := Nat.mul_le_mul_left _ (by omega)
    _ = 2 ^ b.order * (2 ^ d * y) + 2 ^ b.order * 2 ^ d := by ring

end Block

/-! ## The buddy -/

theorem xor_two_pow_of_dvd {n k : ℕ} (h : 2 ^ (k + 1) ∣ n) : n ^^^ 2 ^ k = n + 2 ^ k := by
  obtain ⟨x, rfl⟩ := h
  have hlt : 2 ^ k < 2 ^ (k + 1) := Nat.pow_lt_pow_right (by norm_num) (Nat.lt_succ_self k)
  rw [Nat.two_pow_add_eq_or_of_lt hlt]
  apply Nat.eq_of_testBit_eq
  intro i
  rw [Nat.testBit_xor, Nat.testBit_or, Nat.testBit_two_pow_mul, Nat.testBit_two_pow]
  by_cases hi : k = i
  · subst hi; simp
  · simp [hi]

theorem dvd_succ_or {n k : ℕ} (h : 2 ^ k ∣ n) :
    2 ^ (k + 1) ∣ n ∨ ∃ m, n = m + 2 ^ k ∧ 2 ^ (k + 1) ∣ m := by
  obtain ⟨x, rfl⟩ := h
  rcases Nat.even_or_odd' x with ⟨y, rfl | rfl⟩
  · exact Or.inl ⟨y, by ring⟩
  · exact Or.inr ⟨2 ^ (k + 1) * y, by ring, Dvd.intro _ rfl⟩

theorem xor_two_pow_of_eq_add {n m k : ℕ} (hn : n = m + 2 ^ k) (hm : 2 ^ (k + 1) ∣ m) :
    n ^^^ 2 ^ k = m := by
  rw [hn, ← xor_two_pow_of_dvd hm, Nat.xor_assoc, Nat.xor_self, Nat.xor_zero]

namespace Block

theorem buddy_cases {b : Block} (hb : b.Aligned) :
    (2 ^ (b.order + 1) ∣ b.head ∧ b.buddy = b.head + 2 ^ b.order) ∨
      (2 ^ (b.order + 1) ∣ b.buddy ∧ b.head = b.buddy + 2 ^ b.order) := by
  rcases dvd_succ_or hb with h | ⟨m, hm, hd⟩
  · exact Or.inl ⟨h, xor_two_pow_of_dvd h⟩
  · have := xor_two_pow_of_eq_add hm hd
    exact Or.inr ⟨by rw [buddy, this]; exact hd, by rw [buddy, this]; exact hm⟩

theorem two_pow_dvd_buddy {b : Block} (hb : b.Aligned) : 2 ^ b.order ∣ b.buddy := by
  have hp : 2 ^ b.order ∣ 2 ^ (b.order + 1) := Nat.pow_dvd_pow 2 (Nat.le_succ _)
  rcases buddy_cases hb with ⟨h, e⟩ | ⟨h, -⟩
  · rw [e]; exact Nat.dvd_add (hp.trans h) (dvd_refl _)
  · exact hp.trans h

theorem buddy_not_mem {b : Block} (hb : b.Aligned) : b.buddy ∉ b := by
  have := Nat.two_pow_pos b.order
  rcases buddy_cases hb with ⟨-, e⟩ | ⟨-, e⟩ <;> rw [mem_def] <;> omega

theorem buddy_buddy (b : Block) : (⟨b.buddy, b.order⟩ : Block).buddy = b.head := by
  simp only [buddy, Nat.xor_assoc, Nat.xor_self, Nat.xor_zero]

theorem buddy_mem {b c : Block} (hb : b.Aligned) (hc : c.Aligned) (ho : b.order < c.order)
    (h : b.head ∈ c) : b.buddy ∈ c := by
  have hpos := Nat.two_pow_pos b.order
  -- the two halves of one block `m` of the next order, which `c` contains
  have key : ∀ m, 2 ^ (b.order + 1) ∣ m → b.head ∈ (⟨m, b.order + 1⟩ : Block) →
      b.buddy ∈ (⟨m, b.order + 1⟩ : Block) → b.buddy ∈ c := by
    intro m hm hbm hmem
    obtain ⟨h1, h2⟩ := le_of_mem (b := ⟨m, b.order + 1⟩) hm hc ho hbm h
    rw [mem_def] at hmem ⊢
    exact ⟨h1.trans hmem.1, hmem.2.trans_le h2⟩
  rcases buddy_cases hb with ⟨hd, e⟩ | ⟨hd, e⟩
  · refine key b.head hd ?_ ?_ <;> simp only [mem_def, pow_succ] <;> omega
  · refine key b.buddy hd ?_ ?_ <;> simp only [mem_def, pow_succ] <;> omega

end Block

/-! ## Tilings -/

/-- `L` lists aligned, pairwise disjoint blocks whose pages are those of `P`. -/
structure Tiles (P : Set ℕ) (L : List Block) : Prop where
  aligned : ∀ b ∈ L, b.Aligned
  disjoint : L.Pairwise fun b c => ∀ p, p ∈ b → p ∉ c
  cover : ∀ p, p ∈ P ↔ ∃ b ∈ L, p ∈ b

namespace Tiles

variable {P : Set ℕ} {L M : List Block} {b c : Block}

theorem perm (h : Tiles P L) (hp : L.Perm M) : Tiles P M where
  aligned b hb := h.aligned b (hp.mem_iff.mpr hb)
  disjoint := (hp.pairwise_iff fun hbc p hpc hpb => hbc p hpb hpc).mp h.disjoint
  cover p := by
    rw [h.cover p]
    exact exists_congr fun b => and_congr_left fun _ => hp.mem_iff

theorem nil : Tiles ∅ [] := ⟨by simp, List.Pairwise.nil, by simp⟩

theorem nodup (h : Tiles P L) : L.Nodup :=
  h.disjoint.imp fun {b c} hbc (e : b = c) => hbc b.head b.head_mem (e ▸ b.head_mem)

theorem eq_of_mem (h : Tiles P L) (hb : b ∈ L) (hc : c ∈ L) {p : ℕ} (hpb : p ∈ b) (hpc : p ∈ c) :
    b = c := by
  by_contra hne
  have : Std.Symm fun b c : Block => ∀ p, p ∈ b → p ∉ c :=
    ⟨fun _ _ hbc p hpc hpb => hbc p hpb hpc⟩
  exact h.disjoint.forall hb hc hne p hpb hpc

theorem mem_of_head (h : Tiles P L) (hb : b ∈ L) : b.head ∈ P := (h.cover _).mpr ⟨b, hb, b.head_mem⟩

theorem existsUnique (h : Tiles P L) {p : ℕ} (hp : p ∈ P) : ∃! b, b ∈ L ∧ p ∈ b := by
  obtain ⟨b, hb, hpb⟩ := (h.cover p).mp hp
  exact ⟨b, ⟨hb, hpb⟩, fun c hc => h.eq_of_mem hc.1 hb hc.2 hpb⟩

theorem not_mem_of_cons (h : Tiles P (b :: L)) (hc : c ∈ L) {p : ℕ} (hp : p ∈ b) : p ∉ c :=
  (pairwise_cons.mp h.disjoint).1 c hc p hp

theorem cons (h : Tiles P L) (hb : b.Aligned) (hd : ∀ p ∈ b, p ∉ P) :
    Tiles {p | p ∈ b ∨ p ∈ P} (b :: L) where
  aligned c hc := by
    rcases mem_cons.mp hc with rfl | hc
    · exact hb
    · exact h.aligned c hc
  disjoint := pairwise_cons.mpr
    ⟨fun c hc p hpb hpc => hd p hpb ((h.cover p).mpr ⟨c, hc, hpc⟩), h.disjoint⟩
  cover p := by
    simp only [Set.mem_ofPred_eq, h.cover p, exists_mem_cons_iff]

/-- Part of a tiling, as a tiling of the pages outside the rest. -/
theorem rest (h : Tiles P (M ++ L)) : Tiles {p | p ∈ P ∧ ∀ c ∈ M, p ∉ c} L := by
  obtain ⟨-, hL, hML⟩ := pairwise_append.mp h.disjoint
  refine ⟨fun b hb => h.aligned b (mem_append_right _ hb), hL, fun p => ⟨fun ⟨hp, hM⟩ => ?_, ?_⟩⟩
  · obtain ⟨b, hb, hpb⟩ := (h.cover p).mp hp
    exact ⟨b, (mem_append.mp hb).resolve_left fun hb => hM b hb hpb, hpb⟩
  · rintro ⟨b, hb, hpb⟩
    exact ⟨(h.cover p).mpr ⟨b, mem_append_right _ hb, hpb⟩, fun c hc hpc => hML c hc b hb p hpc hpb⟩

theorem buddy_head (h : Tiles P (b :: L)) (hP : b.buddy ∈ P) :
    ∃ c ∈ L, c.head = b.buddy ∧ c.order ≤ b.order := by
  have hb : b.Aligned := h.aligned b mem_cons_self
  obtain ⟨c, hc, hpc⟩ := (h.cover _).mp hP
  have hcL : c ∈ L := by
    rcases mem_cons.mp hc with rfl | hc
    · exact absurd hpc (Block.buddy_not_mem hb)
    · exact hc
  have hca : c.Aligned := h.aligned c hc
  have hself : b.buddy ∈ (⟨b.buddy, b.order⟩ : Block) := Block.head_mem ⟨b.buddy, b.order⟩
  have hpos := Nat.two_pow_pos b.order
  by_cases ho : c.order ≤ b.order
  · have hba : (⟨b.buddy, b.order⟩ : Block).Aligned := Block.two_pow_dvd_buddy hb
    obtain ⟨h1, -⟩ := Block.le_of_mem hca hba ho hpc hself
    exact ⟨c, hcL, le_antisymm hpc.1 h1, ho⟩
  · -- a larger tile around the buddy would contain `b` as well
    exfalso
    have hle : 2 ^ (b.order + 1) ≤ 2 ^ c.order := Nat.pow_le_pow_right (by norm_num) (by omega)
    have key : ∀ m, 2 ^ (b.order + 1) ∣ m → (b.buddy = m ∨ b.buddy = m + 2 ^ b.order) →
        (b.head = m ∨ b.head = m + 2 ^ b.order) → False := by
      intro m hm hbm hhm
      have hmem : b.buddy ∈ (⟨m, b.order + 1⟩ : Block) := by
        simp only [Block.mem_def, pow_succ]; rcases hbm with e | e <;> omega
      obtain ⟨h1, h2⟩ := Block.le_of_mem (b := ⟨m, b.order + 1⟩) hm hca
        (show b.order + 1 ≤ c.order by omega) hmem hpc
      simp only [pow_succ] at h1 h2 hle
      have : b.head ∈ c := by rw [Block.mem_def]; rcases hhm with e | e <;> omega
      exact h.not_mem_of_cons hcL b.head_mem this
    rcases Block.buddy_cases hb with ⟨hd, e⟩ | ⟨hd, e⟩
    · exact key b.head hd (Or.inr e) (Or.inl rfl)
    · exact key b.buddy hd (Or.inl rfl) (Or.inr e)

theorem split {n k : ℕ} (h : Tiles P (⟨n, k + 1⟩ :: L)) :
    Tiles P (⟨n, k⟩ :: ⟨n + 2 ^ k, k⟩ :: L) := by
  have ha : 2 ^ (k + 1) ∣ n := h.aligned _ mem_cons_self
  have hk : 2 ^ k ∣ n := (Nat.pow_dvd_pow 2 (Nat.le_succ k)).trans ha
  have hmem : ∀ p, p ∈ (⟨n, k + 1⟩ : Block) ↔ p ∈ (⟨n, k⟩ : Block) ∨ p ∈ (⟨n + 2 ^ k, k⟩ : Block) := by
    intro p; simp only [Block.mem_def, pow_succ]; omega
  have hL := fun c (hc : c ∈ L) p hp => h.not_mem_of_cons hc (p := p) hp
  refine ⟨?_, ?_, ?_⟩
  · simp only [forall_mem_cons]
    exact ⟨hk, Nat.dvd_add hk (dvd_refl _), fun b hb => h.aligned b (mem_cons_of_mem _ hb)⟩
  · simp only [pairwise_cons, forall_mem_cons]
    refine ⟨⟨?_, ?_⟩, ?_, (pairwise_cons.mp h.disjoint).2⟩
    · intro p; simp only [Block.mem_def]; omega
    · exact fun c hc p hp => hL c hc p ((hmem p).mpr (Or.inl hp))
    · exact fun c hc p hp => hL c hc p ((hmem p).mpr (Or.inr hp))
  · intro p
    rw [h.cover p]
    simp only [exists_mem_cons_iff, hmem p, or_assoc]

theorem merge (h : Tiles P (b :: ⟨b.buddy, b.order⟩ :: L)) :
    Tiles P (⟨min b.head b.buddy, b.order + 1⟩ :: L) := by
  have hb : b.Aligned := h.aligned b mem_cons_self
  have hpos := Nat.two_pow_pos b.order
  have hal : 2 ^ (b.order + 1) ∣ min b.head b.buddy := by
    rcases Block.buddy_cases hb with ⟨hd, e⟩ | ⟨hd, e⟩
    · rwa [min_eq_left (by omega)]
    · rwa [min_eq_right (by omega)]
  have hmem : ∀ p, p ∈ (⟨min b.head b.buddy, b.order + 1⟩ : Block) ↔
      p ∈ b ∨ p ∈ (⟨b.buddy, b.order⟩ : Block) := by
    intro p
    simp only [Block.mem_def, pow_succ]
    rcases Block.buddy_cases hb with ⟨-, e⟩ | ⟨-, e⟩ <;> omega
  obtain ⟨hbL, hcL, hLL⟩ : (∀ c ∈ L, ∀ p, p ∈ b → p ∉ c) ∧
      (∀ c ∈ L, ∀ p, p ∈ (⟨b.buddy, b.order⟩ : Block) → p ∉ c) ∧
      L.Pairwise fun b c => ∀ p, p ∈ b → p ∉ c := by
    have := h.disjoint
    simp only [pairwise_cons, forall_mem_cons] at this
    exact ⟨this.1.2, this.2.1, this.2.2⟩
  refine ⟨?_, ?_, ?_⟩
  · simp only [forall_mem_cons]
    exact ⟨hal, fun c hc => h.aligned c (by simp [hc])⟩
  · refine pairwise_cons.mpr ⟨fun c hc p hp => ?_, hLL⟩
    rcases (hmem p).mp hp with hp | hp
    · exact hbL c hc p hp
    · exact hcL c hc p hp
  · intro p
    rw [h.cover p]
    simp only [exists_mem_cons_iff, hmem p, or_assoc]

end Tiles

/-! ## Coalesced tilings -/

/-- No two buddies below order `m` are both tiles. -/
def Coalesced (m : ℕ) (L : List Block) : Prop :=
  ∀ b ∈ L, b.order < m → (⟨b.buddy, b.order⟩ : Block) ∉ L

instance (m : ℕ) (L : List Block) : Decidable (Coalesced m L) :=
  inferInstanceAs (Decidable (∀ b ∈ L, b.order < m → (⟨b.buddy, b.order⟩ : Block) ∉ L))

namespace Tiles

variable {P : Set ℕ} {L M : List Block} {b c : Block}

theorem exists_buddy_head (h : Tiles P L) (hb : b ∈ L) (hP : b.buddy ∈ P) :
    ∃ c ∈ L, c.head = b.buddy ∧ c.order ≤ b.order := by
  obtain ⟨c, hc, hhead, ho⟩ := (h.perm (perm_cons_erase hb)).buddy_head hP
  exact ⟨c, mem_of_mem_erase hc, hhead, ho⟩

/-- A coalesced tiling has no tile inside a larger block of its pages: the smallest tile in there
would have its buddy next to it. -/
theorem order_le_of_coalesced (h : Tiles P L) {m : ℕ} (hL : Coalesced m L) (hc : c.Aligned)
    (hcP : ∀ p ∈ c, p ∈ P) (hcm : c.order ≤ m) (hb : b ∈ L) {p : ℕ} (hpb : p ∈ b) (hpc : p ∈ c) :
    c.order ≤ b.order := by
  -- strong induction on the order of the tile
  induction hk : b.order using Nat.strong_induction_on generalizing b p with
  | _ k ih =>
    subst hk
    by_contra hlt
    rw [not_le] at hlt
    have hba := h.aligned b hb
    have hin := Block.le_of_mem hba hc hlt.le hpb hpc
    have hhead : b.head ∈ c := by
      have := Nat.two_pow_pos b.order
      rw [Block.mem_def]
      omega
    have hbuddy : b.buddy ∈ c := Block.buddy_mem hba hc hlt hhead
    obtain ⟨d, hd, hdhead, hdo⟩ := h.exists_buddy_head hb (hcP _ hbuddy)
    rcases hdo.lt_or_eq with hdlt | hdeq
    · -- a smaller tile starts there
      have := ih d.order hdlt hd d.head_mem (hdhead ▸ hbuddy) rfl
      omega
    · refine hL b hb (by omega) ?_
      rw [← hdhead, ← hdeq]
      exact hd

theorem mem_iff_of_coalesced (h : Tiles P L) (h' : Tiles P M) {m : ℕ} (hL : Coalesced m L)
    (hM : Coalesced m M) (hLm : ∀ b ∈ L, b.order ≤ m) (hMm : ∀ b ∈ M, b.order ≤ m) :
    b ∈ L ↔ b ∈ M := by
  have key : ∀ {L M : List Block}, Tiles P L → Tiles P M → Coalesced m L → Coalesced m M →
      (∀ b ∈ L, b.order ≤ m) → (∀ b ∈ M, b.order ≤ m) → b ∈ L → b ∈ M := by
    intro L M h h' hL hM hLm hMm hb
    obtain ⟨c, hc, hbc⟩ := (h'.cover _).mp (h.mem_of_head hb)
    have hba := h.aligned b hb
    have hca := h'.aligned c hc
    have hcb := h.order_le_of_coalesced hL hca (fun p hp => (h'.cover p).mpr ⟨c, hc, hp⟩)
      (hMm c hc) hb b.head_mem hbc
    have hbc' := h'.order_le_of_coalesced hM hba (fun p hp => (h.cover p).mpr ⟨b, hb, hp⟩)
      (hLm b hb) hc hbc b.head_mem
    have ho : c.order = b.order := le_antisymm hcb hbc'
    have h1 := (Block.le_of_mem hba hca hbc' b.head_mem hbc).1
    have h2 := (Block.le_of_mem hca hba hcb hbc b.head_mem).1
    have heq : c = b := by
      cases b
      cases c
      simp only [Block.mk.injEq]
      exact ⟨le_antisymm h1 h2, ho⟩
    exact heq ▸ hc
  exact ⟨key h h' hL hM hLm hMm, key h' h hM hL hMm hLm⟩

end Tiles

end Tiling
