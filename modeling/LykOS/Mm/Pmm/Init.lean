import LykOS.Lib.Run
import LykOS.Mm.Pmm.Ownership
import Mathlib.Data.List.Nodup

/-!
# Initialisation and whole runs

`pmm_init` tiles the usable pages outside the `blocks` array (`pmmInit_owned`), so `Owned` holds
there, and with it along every run of allocations and frees (`run_owned`). `Ownership` is what this
says about a state, without the blocks in hand.
-/

namespace LykOS.Pmm

open Tiling
open List hiding not_lt

/-! ## The managed pages -/

def InEntry (e : MemmapEntry) (p : ℕ) : Prop :=
  e.base ≤ archPageGran * p ∧ archPageGran * p + archPageGran ≤ e.base + e.length

/-- Page `p` holds a part of the `blocks` array. -/
def InArray (map : List MemmapEntry) (p : ℕ) : Prop :=
  ∃ last e, lastUsableEntry map = some last ∧ arrayEntry map (blockCountOf last) = some e ∧
    e.base ≤ archPageGran * p ∧
      archPageGran * p < e.base + blockCountOf last * sizeofPmmBlock

/-- The usable pages outside the `blocks` array. -/
def managed (map : List MemmapEntry) : Set ℕ :=
  {p | (∃ e ∈ usableEntries map, InEntry e p) ∧ ¬ InArray map p}

/-- A memory map as Limine hands it over: the usable entries are page-aligned, sorted and do not
overlap, and the higher-half direct map shows all of them, in the upper half. -/
structure MemmapOk (hhdm : ℕ) (map : List MemmapEntry) : Prop where
  aligned : ∀ e ∈ usableEntries map, archPageGran ∣ e.base ∧ archPageGran ∣ e.length
  sorted : (usableEntries map).Pairwise fun e f => e.base + e.length ≤ f.base
  below : ∀ e ∈ usableEntries map, e.base + e.length ≤ hhdm
  direct : ∀ e ∈ usableEntries map, e.base + e.length + hhdm ≤ 2 ^ 64

theorem lastUsableEntry_eq (map : List MemmapEntry) :
    lastUsableEntry map = (usableEntries map).getLast? := by
  have key : ∀ (l : List MemmapEntry) (a : Option MemmapEntry),
      l.foldl (fun last e => if e.type = .usable then some e else last) a =
        (usableEntries l).getLast?.or a := by
    intro l
    induction l with
    | nil => intro a; rfl
    | cons e l ih =>
      intro a
      rw [foldl_cons, ih, usableEntries, usableEntries]
      by_cases he : e.type = .usable
      · rw [if_pos he, filter_cons_of_pos (by simpa using he), getLast?_cons]
        cases (List.filter (fun e => decide (e.type = .usable)) l).getLast? <;> rfl
      · rw [if_neg he, filter_cons_of_neg (by simpa using he)]
  rw [lastUsableEntry, key, Option.or_none]

/-- The part of `MemmapOk` that `pmm_init` needs: no sum of the greedy loop wraps around. -/
structure MapFits (hhdm : ℕ) (map : List MemmapEntry) : Prop where
  aligned : ∀ e ∈ usableEntries map, archPageGran ∣ e.base ∧ archPageGran ∣ e.length
  sorted : (usableEntries map).Pairwise fun e f => e.base + e.length ≤ f.base
  fits : ∀ e ∈ usableEntries map, e.base + e.length + 2 ^ 22 < 2 ^ 64
  hhdm_le : hhdm ≤ 2 ^ 64

theorem MemmapOk.mapFits {hhdm : ℕ} {map : List MemmapEntry} (h : MemmapOk hhdm map) {e : MemmapEntry}
    (he : e ∈ usableEntries map) : MapFits hhdm map where
  aligned := h.aligned
  sorted := h.sorted
  fits e he := by
    have h1 := h.below e he
    have h2 := h.direct e he
    omega
  hhdm_le := Nat.le_trans (Nat.le_add_left _ _) (h.direct e he)

theorem last_mem {map : List MemmapEntry} {last : MemmapEntry} (hl : lastUsableEntry map = some last) :
    last ∈ usableEntries map := by
  rw [lastUsableEntry_eq] at hl
  exact mem_of_getLast? hl

def endPage (e : MemmapEntry) : ℕ := (e.base + e.length) / archPageGran

namespace MapFits

variable {hhdm : ℕ} {map : List MemmapEntry} {e f last : MemmapEntry}

theorem end_eq (h : MapFits hhdm map) (he : e ∈ usableEntries map) :
    archPageGran * endPage e = e.base + e.length :=
  Nat.mul_div_cancel' (Nat.dvd_add (h.aligned e he).1 (h.aligned e he).2)

theorem end_le_last (h : MapFits hhdm map) (hl : lastUsableEntry map = some last)
    (he : e ∈ usableEntries map) : e.base + e.length ≤ last.base + last.length := by
  rw [lastUsableEntry_eq] at hl
  obtain ⟨l, hl⟩ := getLast?_eq_some_iff.mp hl
  have hs := h.sorted
  rw [hl] at he hs
  rcases mem_append.mp he with he | he
  · have := (pairwise_append.mp hs).2.2 e he last (by simp)
    omega
  · rw [mem_singleton.mp he]

theorem blockCountOf_eq (h : MapFits hhdm map) (hl : lastUsableEntry map = some last) :
    blockCountOf last = endPage last := by
  have hfits := h.fits last (last_mem hl)
  rw [blockCountOf, endPage, u64_of_lt (by omega)]

theorem endPage_le (h : MapFits hhdm map) (hl : lastUsableEntry map = some last)
    (he : e ∈ usableEntries map) : endPage e ≤ blockCountOf last := by
  rw [h.blockCountOf_eq hl]
  exact Nat.div_le_div_right (h.end_le_last hl he)

theorem disjoint (h : MapFits hhdm map) (he : e ∈ usableEntries map) (hf : f ∈ usableEntries map)
    (hne : e ≠ f) : e.base + e.length ≤ f.base ∨ f.base + f.length ≤ e.base := by
  let R (e f : MemmapEntry) : Prop := e.base + e.length ≤ f.base ∨ f.base + f.length ≤ e.base
  have hsymm : Std.Symm R := ⟨fun _ _ h => h.symm⟩
  have hR : (usableEntries map).Pairwise R := h.sorted.imp fun h => Or.inl h
  exact hR.forall he hf hne

end MapFits

/-! ## The greedy loop -/

variable {s : PmmState} {P : Set ℕ} {m : ℕ}

theorem Owned.congr {Q : Set ℕ} {out hand : List Block} (h : Owned P s out hand)
    (hPQ : ∀ p, p ∈ P ↔ p ∈ Q) : Owned Q s out hand := (Set.ext hPQ) ▸ h

theorem Owned.add {out hand : List Block} (h : Owned P s out hand) {b : Block} (hb : b.Aligned)
    (hd : ∀ p ∈ b, p ∉ P) (hlt : ∀ p ∈ b, p < s.blockCount) :
    Owned {p | p ∈ b ∨ p ∈ P} s out (b :: hand) where
  tiles := h.tiles.cons hb hd
  lt_count p hp := hp.elim (hlt p) (h.lt_count p)
  addr_eq := h.addr_eq
  free_record := h.free_record
  out_record := h.out_record
  out_order := h.out_order
  unmanaged i hi hP := h.unmanaged i hi fun h => hP (Or.inr h)

/-- The block is aligned and ends before page `m`. -/
def Placeable (m : ℕ) (b : Block) : Prop := b.Aligned ∧ b.head + 2 ^ b.order ≤ m

instance (m : ℕ) (b : Block) : Decidable (Placeable m b) := inferInstanceAs (Decidable (_ ∧ _))

theorem span_le {order : ℕ} (ho : order ≤ pmmMaxOrder) : 2 ^ order * archPageGran ≤ 2 ^ 22 :=
  calc 2 ^ order * archPageGran ≤ 2 ^ pmmMaxOrder * archPageGran :=
        Nat.mul_le_mul_right _ (Nat.pow_le_pow_right (by norm_num) ho)
    _ = 2 ^ 22 := by decide

theorem fillEntry_of_gt {stop : ℕ} : ∀ {fuel addr order : ℕ} {s : PmmState}, stop < addr →
    addr + 2 ^ 22 < 2 ^ 64 → order ≤ pmmMaxOrder → fillEntry stop fuel addr order s = none := by
  intro fuel
  induction fuel with
  | zero => intros; rfl
  | succ fuel ih =>
    intro addr order s hgt hb ho
    have hspan := span_le ho
    have hu : u64 (addr + pmmOrderToPagecount order * archPageGran) > stop := by
      rw [pmmOrderToPagecount_eq, u64_of_lt (by omega)]
      omega
    rw [fillEntry, if_neg (by omega), if_pos (Or.inl hu)]
    split_ifs
    · rfl
    · exact ih hgt hb (by omega)

theorem fillEntry_of_eq (stop fuel order : ℕ) (s : PmmState) :
    fillEntry stop (fuel + 1) stop order s = some s := if_pos rfl

theorem fillEntry_succ {n fuel order : ℕ} (hb : archPageGran * m + 2 ^ 22 < 2 ^ 64) (hlt : n < m)
    (ho : order ≤ pmmMaxOrder) :
    fillEntry (archPageGran * m) (fuel + 1) (archPageGran * n) order s =
      if Placeable m ⟨n, order⟩ then (s.putFree n order).bind
        (fillEntry (archPageGran * m) fuel (archPageGran * (n + 2 ^ order)) pmmMaxOrder)
      else if order = 0 then none
      else fillEntry (archPageGran * m) fuel (archPageGran * n) (order - 1) s := by
  have hg : 0 < archPageGran := by decide
  have hspan := span_le ho
  have hn : archPageGran * n < archPageGran * m := Nat.mul_lt_mul_of_pos_left hlt hg
  have hnext : archPageGran * n + 2 ^ order * archPageGran = archPageGran * (n + 2 ^ order) := by
    rw [Nat.mul_add, Nat.mul_comm (2 ^ order)]
  have hsum : u64 (archPageGran * n + 2 ^ order * archPageGran) = archPageGran * (n + 2 ^ order) := by
    rw [u64_of_lt (by omega), hnext]
  have hmod : archPageGran * n % (2 ^ order * archPageGran) = 0 ↔ 2 ^ order ∣ n := by
    rw [Nat.mul_comm archPageGran, ← Nat.dvd_iff_mod_eq_zero, Nat.mul_dvd_mul_iff_right hg]
  have hplace : Placeable m ⟨n, order⟩ ↔ ¬(u64 (archPageGran * n + 2 ^ order * archPageGran) >
      archPageGran * m ∨ archPageGran * n % (2 ^ order * archPageGran) ≠ 0) := by
    rw [hsum, not_or, ne_eq, not_not, hmod, gt_iff_lt, not_lt, Nat.mul_le_mul_left_iff hg]
    exact and_comm
  rw [fillEntry, if_neg (by omega), pmmOrderToPagecount_eq]
  by_cases h : Placeable m ⟨n, order⟩
  · rw [if_pos h, if_neg (hplace.mp h), Nat.mul_div_cancel_left n hg, hsum]
    rfl
  · rw [if_neg h, if_pos (not_not.mp fun hc => h (hplace.mpr hc))]

theorem Owned.place (h : Owned P s [] []) {b : Block} (hb : Placeable m b)
    (ho : b.order ≤ pmmMaxOrder) (hnew : ∀ p, b.head ≤ p → p < m → p ∉ P) (hm : m ≤ s.blockCount) :
    ∃ s', s.putFree b.head b.order = some s' ∧ s'.blockCount = s.blockCount ∧
      Owned {p | p ∈ b ∨ p ∈ P} s' [] [] ∧
      ∀ p, b.head + 2 ^ b.order ≤ p → p < m → p ∉ {p | p ∈ b ∨ p ∈ P} := by
  have hlt : ∀ p ∈ b, p < m := fun p hp => Nat.lt_of_lt_of_le hp.2 hb.2
  obtain ⟨s', hput, hcnt, hown⟩ := (h.add hb.1 (fun p hp => hnew p hp.1 (hlt p hp))
    fun p hp => Nat.lt_of_lt_of_le (hlt p hp) hm).putFree ho
  refine ⟨s', hput, hcnt, hown, ?_⟩
  rintro p h1 h2 (hp | hp)
  · exact absurd hp.2 (Nat.not_lt.mpr h1)
  · exact hnew p (Nat.le_trans (Nat.le_add_right _ _) h1) h2 hp

theorem fillEntry_owned (hb : archPageGran * m + 2 ^ 22 < 2 ^ 64) :
    ∀ {fuel n order : ℕ} {P : Set ℕ} {s s' : PmmState}, n ≤ m → order ≤ pmmMaxOrder →
      (∀ p, n ≤ p → p < m → p ∉ P) → m ≤ s.blockCount → Owned P s [] [] →
      fillEntry (archPageGran * m) fuel (archPageGran * n) order s = some s' →
        s'.blockCount = s.blockCount ∧ Owned {p | p ∈ P ∨ n ≤ p ∧ p < m} s' [] [] := by
  intro fuel
  induction fuel with
  | zero => intro n order P s s' _ _ _ _ _ h; cases h
  | succ fuel ih =>
    intro n order P s s' hle ho hnew hm hown h
    rcases Nat.eq_or_lt_of_le hle with rfl | hlt
    · rw [fillEntry_of_eq] at h
      cases h
      exact ⟨rfl, hown.congr fun p => ⟨Or.inl, fun hp => hp.elim id (by rintro ⟨h1, h2⟩; omega)⟩⟩
    · rw [fillEntry_succ hb hlt ho] at h
      split_ifs at h with hplace hzero
      · obtain ⟨s₁, hput, hcnt, hown₁, hnew₁⟩ := hown.place hplace ho hnew hm
        rw [hput, Option.bind_some] at h
        obtain ⟨hc, hown'⟩ := ih hplace.2 le_rfl hnew₁ (hcnt ▸ hm) hown₁ h
        refine ⟨hc.trans hcnt, hown'.congr fun p => ?_⟩
        have hend := hplace.2
        simp only [Set.mem_ofPred_eq, Block.mem_def] at hend ⊢
        constructor
        · rintro ((hp | hp) | hp)
          · exact Or.inr ⟨hp.1, by omega⟩
          · exact Or.inl hp
          · exact Or.inr ⟨Nat.le_trans (Nat.le_add_right _ _) hp.1, hp.2⟩
        · rintro (hp | hp)
          · exact Or.inl (Or.inr hp)
          · rcases Nat.lt_or_ge p (n + 2 ^ order) with h3 | h3
            · exact Or.inl (Or.inl ⟨hp.1, h3⟩)
            · exact Or.inr ⟨h3, hp.2⟩
      · exact ih hle (by omega) hnew hm hown h

/-! ## The loop over the entries -/

section Entries

variable {hhdm : ℕ} {map : List MemmapEntry} {last a : MemmapEntry}
  (hmap : MapFits hhdm map) (hl : lastUsableEntry map = some last)
  (ha : arrayEntry map (blockCountOf last) = some a)

include ha in
theorem arrayEntry_spec : a ∈ usableEntries map ∧
    blockCountOf last * sizeofPmmBlock ≤ a.length := by
  have h := find?_some ha
  simp only [Bool.decide_and, Bool.and_eq_true, decide_eq_true_eq] at h
  refine ⟨mem_filter.mpr ⟨mem_of_find?_eq_some ha, ?_⟩, h.2⟩
  simpa using h.1

include hl ha in
theorem inArray_iff {p : ℕ} : InArray map p ↔ a.base ≤ archPageGran * p ∧
    archPageGran * p < a.base + blockCountOf last * sizeofPmmBlock := by
  constructor
  · rintro ⟨l, e, h1, h2, h3⟩
    rw [hl, Option.some.injEq] at h1
    subst h1
    rw [ha, Option.some.injEq] at h2
    subst h2
    exact h3
  · exact fun h => ⟨last, a, hl, ha, h⟩

theorem arraySize_le_iff {c m : ℕ} : arraySize c ≤ archPageGran * m ↔
    c * sizeofPmmBlock ≤ archPageGran * m := by
  unfold arraySize archPageGran sizeofPmmBlock
  omega

include hmap ha in
theorem arraySize_le : arraySize (blockCountOf last) ≤ a.length := by
  obtain ⟨had, hsz⟩ := arrayEntry_spec ha
  obtain ⟨y, hy⟩ := (hmap.aligned a had).2
  rw [hy] at hsz ⊢
  exact arraySize_le_iff.mpr hsz

/-- The first page that the loop marks: that of the entry, or the one behind the array. -/
def firstPage (a : MemmapEntry) (blockCount : ℕ) (e : MemmapEntry) : ℕ :=
  (if e.base = a.base then e.base + arraySize blockCount else e.base) / archPageGran

variable {e : MemmapEntry}

include hmap in
theorem firstPage_eq (he : e ∈ usableEntries map) (c : ℕ) :
    archPageGran * firstPage a c e = if e.base = a.base then e.base + arraySize c else e.base := by
  refine Nat.mul_div_cancel' ?_
  have hd := (hmap.aligned e he).1
  split_ifs
  · exact Nat.dvd_add hd (Dvd.intro_left _ rfl)
  · exact hd

include hmap ha in
theorem initEntry_eq (he : e ∈ usableEntries map) {s : PmmState}
    (hc : s.blockCount = blockCountOf last) :
    initEntry hhdm (u64 (a.base + hhdm)) s e =
      fillEntry (archPageGran * endPage e) (e.length / archPageGran * (pmmMaxOrder + 1) + 1)
        (archPageGran * firstPage a (blockCountOf last) e) pmmMaxOrder s := by
  obtain ⟨had, -⟩ := arrayEntry_spec ha
  have hsz := arraySize_le hmap ha
  have ha1 := hmap.fits a had
  have he1 := hmap.fits e he
  have hh := hmap.hhdm_le
  have hu : e.type = .usable := by simpa using (mem_filter.mp he).2
  have hab : u64 (u64 (a.base + hhdm) + 2 ^ 64 - hhdm) = a.base := by
    unfold u64
    omega
  have hfirst : (if e.base = a.base then u64 (e.base + arraySize (blockCountOf last)) else e.base) =
      if e.base = a.base then e.base + arraySize (blockCountOf last) else e.base := by
    split_ifs
    · rw [u64_of_lt (by omega)]
    · rfl
  simp only [initEntry, hu, ne_eq, not_true_eq_false, if_false, hab, hc, hmap.end_eq he,
    firstPage_eq hmap he, hfirst]
  rw [u64_of_lt (by omega)]

include hmap hl ha in
theorem firstPage_le_iff (he : e ∈ usableEntries map) {p : ℕ} :
    firstPage a (blockCountOf last) e ≤ p ∧ p < endPage e ↔ InEntry e p ∧ ¬ InArray map p := by
  obtain ⟨had, hsz⟩ := arrayEntry_spec ha
  rw [inArray_iff hl ha]
  have hg : 0 < archPageGran := by decide
  obtain ⟨⟨x, hx⟩, ⟨y, hy⟩⟩ := hmap.aligned e he
  have hin : InEntry e p ↔ e.base ≤ archPageGran * p ∧ archPageGran * p < e.base + e.length := by
    rw [InEntry, hx, hy]
    unfold archPageGran
    omega
  rw [hin, ← Nat.mul_le_mul_left_iff hg, firstPage_eq hmap he, ← Nat.mul_lt_mul_left hg, hmap.end_eq he]
  by_cases hb : e.base = a.base
  · have hz : arraySize (blockCountOf last) ≤ archPageGran * (p - x) ↔ _ := arraySize_le_iff
    rw [if_pos hb]
    rw [← hb]
    rw [hx] at *
    unfold archPageGran at *
    omega
  · rw [if_neg hb]
    constructor
    · rintro ⟨h1, h2⟩
      refine ⟨⟨h1, h2⟩, ?_⟩
      rcases hmap.disjoint he had fun heq => hb (heq ▸ rfl) with h | h <;> omega
    · exact fun h => h.1

include hmap ha in
theorem firstPage_le_end (he : e ∈ usableEntries map) :
    archPageGran * firstPage a (blockCountOf last) e + 2 ^ 22 < 2 ^ 64 := by
  have hsz := arraySize_le hmap ha
  have ha1 := hmap.fits a (arrayEntry_spec ha).1
  have he1 := hmap.fits e he
  rw [firstPage_eq hmap he]
  split_ifs <;> omega

include hmap hl ha in
theorem new_pages {pre post : List MemmapEntry}
    (hum : usableEntries map = usableEntries pre ++ e :: usableEntries post) (p : ℕ)
    (h1 : firstPage a (blockCountOf last) e ≤ p) (h2 : p < endPage e) :
    p ∉ {p | (∃ f ∈ usableEntries pre, InEntry f p) ∧ ¬ InArray map p} := by
  rintro ⟨⟨f, hf, hp⟩, -⟩
  have he : e ∈ usableEntries map := by rw [hum]; simp
  have hs := hmap.sorted
  rw [hum] at hs
  have hfe := (pairwise_append.mp hs).2.2 f hf e (by simp)
  have hep := ((firstPage_le_iff hmap hl ha he).mp ⟨h1, h2⟩).1.1
  have hfp := hp.2
  have : 0 < archPageGran := by decide
  omega

include hmap hl ha in
theorem initEntry_owned {pre post : List MemmapEntry} {s s' : PmmState}
    (hsplit : map = pre ++ e :: post) (hc : s.blockCount = blockCountOf last)
    (hown : Owned {p | (∃ f ∈ usableEntries pre, InEntry f p) ∧ ¬ InArray map p} s [] [])
    (h : initEntry hhdm (u64 (a.base + hhdm)) s e = some s') :
    s'.blockCount = blockCountOf last ∧
      Owned {p | (∃ f ∈ usableEntries (pre ++ [e]), InEntry f p) ∧ ¬ InArray map p} s' [] [] := by
  by_cases hu : e.type = .usable
  · have hue : usableEntries (pre ++ [e]) = usableEntries pre ++ [e] := by
      simp [usableEntries, hu]
    have hum : usableEntries map = usableEntries pre ++ e :: usableEntries post := by
      rw [hsplit]; simp [usableEntries, hu]
    have he : e ∈ usableEntries map := by rw [hum]; simp
    have hiff := fun p => firstPage_le_iff hmap hl ha he (p := p)
    have hend := hmap.fits e he
    have hm := hmap.endPage_le hl he
    rw [← hmap.end_eq he] at hend
    rw [initEntry_eq hmap ha he hc] at h
    have hnew := new_pages hmap hl ha hum
    -- an empty entry at the base of the array makes the loop run past its end
    rcases Nat.lt_or_ge (endPage e) (firstPage a (blockCountOf last) e) with hgt | hle
    · have hstart := firstPage_le_end hmap ha he
      rw [fillEntry_of_gt (Nat.mul_lt_mul_of_pos_left hgt (by decide)) hstart le_rfl] at h
      cases h
    · obtain ⟨hc', hown'⟩ := fillEntry_owned hend hle le_rfl hnew (hc ▸ hm) hown h
      refine ⟨hc'.trans hc, hown'.congr fun p => ?_⟩
      simp only [Set.mem_ofPred_eq, hue, hiff p, mem_append, mem_singleton]
      constructor
      · rintro (⟨⟨f, hf, hp⟩, hA⟩ | ⟨hp, hA⟩)
        · exact ⟨⟨f, Or.inl hf, hp⟩, hA⟩
        · exact ⟨⟨e, Or.inr rfl, hp⟩, hA⟩
      · rintro ⟨⟨f, hf | rfl, hp⟩, hA⟩
        · exact Or.inl ⟨⟨f, hf, hp⟩, hA⟩
        · exact Or.inr ⟨hp, hA⟩
  · have hue : usableEntries (pre ++ [e]) = usableEntries pre := by simp [usableEntries, hu]
    rw [initEntry, if_pos hu] at h
    cases h
    exact ⟨hc, by rw [hue]; exact hown⟩

include hmap hl ha in
theorem initEntries_owned {post : List MemmapEntry} (pre : List MemmapEntry) {s s' : PmmState}
    (hsplit : map = pre ++ post) (hc : s.blockCount = blockCountOf last)
    (hown : Owned {p | (∃ f ∈ usableEntries pre, InEntry f p) ∧ ¬ InArray map p} s [] [])
    (h : post.foldlM (initEntry hhdm (u64 (a.base + hhdm))) s = some s') : Owned (managed map) s' [] [] := by
  induction post generalizing pre s with
  | nil =>
    cases h
    rw [List.append_nil] at hsplit
    subst hsplit
    exact hown
  | cons e post ih =>
    rw [foldlM_cons, Option.bind_eq_bind, Option.bind_eq_some_iff] at h
    obtain ⟨s₁, h₁, h⟩ := h
    obtain ⟨hc₁, hown₁⟩ := initEntry_owned hmap hl ha hsplit hc hown h₁
    exact ih (pre ++ [e]) (by rw [hsplit]; simp) hc₁ hown₁ h

end Entries

theorem owned_start (map : List MemmapEntry) (blockCount : ℕ) :
    Owned {p | (∃ f ∈ usableEntries [], InEntry f p) ∧ ¬ InArray map p}
      ⟨fun i => ⟨archPageGran * i, 0, false⟩, blockCount, fun _ => []⟩ [] [] := by
  have hfree : freeBlocks (fun _ => []) = [] := by
    rw [eq_nil_iff_forall_not_mem]
    intro b hb
    cases (mem_freeBlocks.mp hb).2
  refine (show Owned ∅ _ [] [] from ⟨?_, ?_, ?_, ?_, ?_, ?_, ?_⟩).congr fun p => ?_
  · rw [hfree]; exact Tiles.nil
  · exact fun p hp => hp.elim
  · exact fun i _ => rfl
  · rw [hfree]; exact fun b hb => nomatch hb
  · exact fun b hb => nomatch hb
  · exact fun b hb => nomatch hb
  · exact fun i _ _ => rfl
  · simp [usableEntries]

variable {hhdm : ℕ} {map : List MemmapEntry} {s : PmmState} {out : List Block}

theorem pmmInit_owned (hmap : MemmapOk hhdm map) (h : pmmInit hhdm map = some s) :
    Owned (managed map) s [] [] := by
  simp only [pmmInit, Option.bind_eq_bind, Option.bind_eq_some_iff] at h
  obtain ⟨last, hl, a, ha, -, -, h⟩ := h
  exact initEntries_owned (hmap.mapFits (last_mem hl)) hl ha [] (nil_append map).symm rfl
    (owned_start map _) h

/-! ## Runs -/

inductive Op
  | alloc (order : ℕ)
  | free (addr : ℕ)
  deriving DecidableEq, Repr

/-- One call, on the allocator and the list of outstanding blocks. Only an outstanding address may
be freed. -/
def step (hhdm : ℕ) : PmmState × List Block → Op → Option (PmmState × List Block)
  | (s, out), .alloc order => do
    let (addr, s) ← pmmAlloc s order
    return (s, ⟨addr / archPageGran, order⟩ :: out)
  | (s, out), .free addr => do
    let b ← out.find? fun b => archPageGran * b.head = addr
    let s ← pmmFree hhdm s addr
    return (s, out.erase b)

theorem pmmAlloc_eq_some {P : Set ℕ} {s' : PmmState} (h : Owned P s out []) {order addr : ℕ}
    (ha : pmmAlloc s order = some (addr, s')) :
    ∃ n, addr = archPageGran * n ∧ Owned P s' (⟨n, order⟩ :: out) [] := by
  have ha' := ha
  simp only [pmmAlloc, Option.bind_eq_bind, Option.bind_eq_some_iff] at ha'
  obtain ⟨_, hg, i, hi, -⟩ := ha'
  have ho : order ≤ pmmMaxOrder := (Option.guard_eq_some' _).mp hg
  obtain ⟨n, s₁, ha₁, h₁⟩ := pmmAlloc_owned h ho hi
  rw [ha₁, Option.some.injEq, Prod.mk.injEq] at ha
  obtain ⟨rfl, rfl⟩ := ha
  exact ⟨n, rfl, h₁⟩

theorem managed_lt (hmap : MemmapOk hhdm map) {p : ℕ} (hp : p ∈ managed map) :
    archPageGran * p < hhdm := by
  obtain ⟨⟨e, he, hpe⟩, -⟩ := hp
  have h1 := hmap.below e he
  have h2 := hpe.2
  have : 0 < archPageGran := by decide
  omega

theorem step_cases {P : Set ℕ} {x y : PmmState × List Block} {o : Op} (h : Owned P x.1 x.2 [])
    (hs : step hhdm x o = some y) :
    (∃ order n, pmmAlloc x.1 order = some (archPageGran * n, y.1) ∧ y.2 = ⟨n, order⟩ :: x.2 ∧
        Owned P y.1 y.2 []) ∨
      ∃ b ∈ x.2, pmmFree hhdm x.1 (archPageGran * b.head) = some y.1 ∧ y.2 = x.2.erase b := by
  obtain ⟨s, out⟩ := x
  cases o with
  | alloc order =>
    obtain ⟨⟨addr, s'⟩, ha, hy⟩ := Option.bind_eq_some_iff.mp hs
    cases hy
    obtain ⟨n, rfl, h'⟩ := pmmAlloc_eq_some h ha
    have hhead : archPageGran * n / archPageGran = n := Nat.mul_div_cancel_left n (by decide)
    dsimp only
    rw [hhead]
    exact Or.inl ⟨order, n, ha, rfl, h'⟩
  | free addr =>
    obtain ⟨b, hb, hs⟩ := Option.bind_eq_some_iff.mp hs
    obtain ⟨s', hf, hy⟩ := Option.bind_eq_some_iff.mp hs
    cases hy
    obtain rfl : archPageGran * b.head = addr := by simpa using find?_some hb
    exact Or.inr ⟨b, mem_of_find?_eq_some hb, hf, rfl⟩

theorem step_owned (hmap : MemmapOk hhdm map) (x : PmmState × List Block) (o : Op)
    (y : PmmState × List Block) (h : Owned (managed map) x.1 x.2 []) (hs : step hhdm x o = some y) :
    Owned (managed map) y.1 y.2 [] := by
  rcases step_cases h hs with ⟨order, n, -, -, h'⟩ | ⟨b, hout, hf, herase⟩
  · exact h'
  · have hP : b.head ∈ managed map := h.tiles.mem_of_head (by simp [hout])
    obtain ⟨s₁, hf₁, h₁⟩ := pmmFree_owned h hout (managed_lt hmap hP)
    rw [hf₁, Option.some.injEq] at hf
    rw [herase, ← hf]
    exact h₁

theorem run_owned (hmap : MemmapOk hhdm map) {s₀ : PmmState} {ops : List Op}
    (h₀ : pmmInit hhdm map = some s₀) (hrun : Run.run (step hhdm) (s₀, []) ops = some (s, out)) :
    Owned (managed map) s out [] :=
  Run.run_induction (I := fun x => Owned (managed map) x.1 x.2 []) (step_owned hmap)
    (pmmInit_owned hmap h₀) hrun

def OnFreeList (s : PmmState) (b : Block) : Prop := b.order ≤ pmmMaxOrder ∧ b.head ∈ s.levels b.order

/-- Each managed page belongs to one block, which is free or outstanding, and the free lists and
records say which; so an allocation hands out managed pages that nobody holds, and a free of an
outstanding block succeeds. -/
structure Ownership (hhdm : ℕ) (map : List MemmapEntry) (s : PmmState) (out : List Block) : Prop where
  page : ∀ p ∈ managed map, ∃! b, (OnFreeList s b ∨ b ∈ out) ∧ p ∈ b
  managed : ∀ b, OnFreeList s b ∨ b ∈ out → ∀ p ∈ b, p ∈ managed map
  aligned : ∀ b, OnFreeList s b ∨ b ∈ out → 2 ^ b.order ∣ b.head
  exclusive : ∀ b, OnFreeList s b → b ∉ out
  outstanding_once : out.Nodup
  one_list : ∀ b, OnFreeList s b → (s.levels b.order).count b.head = 1 ∧
    ∀ k ≤ pmmMaxOrder, b.head ∈ s.levels k → k = b.order
  record : ∀ b, OnFreeList s b →
    s.block b.head = some ⟨archPageGran * b.head, b.order, true⟩
  alloc_fresh : ∀ order addr s', pmmAlloc s order = some (addr, s') →
    archPageGran ∣ addr ∧ ∀ p ∈ (⟨addr / archPageGran, order⟩ : Block),
      p ∈ Pmm.managed map ∧ ∀ b ∈ out, p ∉ b
  alloc_total : ∀ order ≤ pmmMaxOrder, pmmAlloc s order = none →
    ∀ b, OnFreeList s b → b.order < order
  free_total : ∀ b ∈ out, (pmmFree hhdm s (archPageGran * b.head)).isSome

theorem Owned.nodup_level {P : Set ℕ} {hand : List Block} (h : Owned P s out hand) {k : ℕ}
    (hk : k ≤ pmmMaxOrder) : (s.levels k).Nodup := by
  have hfree : (freeBlocks s.levels).Nodup :=
    (nodup_append.mp (nodup_append.mp h.tiles.nodup).2.1).2.1
  have hsub : ((s.levels k).map fun x => (x, k)).Sublist
      (Pool.entries (pmmMaxOrder + 1) s.levels) := by
    unfold Pool.entries
    rw [flatMap_def]
    exact sublist_flatten_of_mem
      (mem_map_of_mem (mem_range.mpr (Nat.lt_succ_iff.mpr hk)))
  exact List.Nodup.of_map _ ((List.Nodup.of_map _ hfree).sublist hsub)

/-- Buddy allocation never loses a page and never hands one out twice. -/
theorem pmm_run_ownership {hhdm : ℕ} {map : List MemmapEntry} (hmap : MemmapOk hhdm map)
    {s₀ s : PmmState} {out : List Block} {ops : List Op} (h₀ : pmmInit hhdm map = some s₀)
    (hrun : Run.run (step hhdm) (s₀, []) ops = some (s, out)) : Ownership hhdm map s out := by
  have h := run_owned hmap h₀ hrun
  have hmem : ∀ b, OnFreeList s b ∨ b ∈ out ↔ b ∈ [] ++ (out ++ freeBlocks s.levels) := by
    intro b
    rw [nil_append, mem_append, or_comm, OnFreeList, mem_freeBlocks]
  have hmP : ∀ b, OnFreeList s b ∨ b ∈ out → ∀ p ∈ b, p ∈ managed map := fun b hb p hp =>
    (h.tiles.cover p).mpr ⟨b, (hmem b).mp hb, hp⟩
  refine ⟨?_, hmP, ?_, ?_, ?_, ?_, ?_, ?_, ?_, ?_⟩
  · intro p hp
    simpa only [hmem] using h.tiles.existsUnique hp
  · exact fun b hb => h.tiles.aligned b ((hmem b).mp hb)
  · intro b hb hout
    have hnd := (nodup_append.mp (nodup_append.mp h.tiles.nodup).2.1).2.2
    exact hnd b hout b (mem_freeBlocks.mpr hb) rfl
  · exact (nodup_append.mp (nodup_append.mp h.tiles.nodup).2.1).1
  · intro b hb
    refine ⟨count_eq_one_of_mem (h.nodup_level hb.1) hb.2, fun k hk hmk => ?_⟩
    have hc : OnFreeList s ⟨b.head, k⟩ := ⟨hk, hmk⟩
    have := h.tiles.eq_of_mem ((hmem _).mp (Or.inl hb)) ((hmem _).mp (Or.inl hc)) b.head_mem
      (Block.head_mem ⟨b.head, k⟩)
    exact (congrArg Block.order this).symm
  · intro b hb
    have hlt := h.head_lt ((hmem b).mp (Or.inl hb))
    obtain ⟨h1, h2⟩ := h.free_record b (mem_freeBlocks.mpr hb)
    rw [PmmState.block, if_pos hlt, ← h.addr_eq _ hlt, ← h1, ← h2]
  · intro order addr s' ha
    obtain ⟨n, rfl, h'⟩ := pmmAlloc_eq_some h ha
    rw [Nat.mul_div_cancel_left n (by decide)]
    refine ⟨Dvd.intro _ rfl, fun p hp => ⟨(h'.tiles.cover p).mpr ⟨_, by simp, hp⟩, fun b hb => ?_⟩⟩
    have htiles : Tiles (managed map) (⟨n, order⟩ :: (out ++ freeBlocks s'.levels)) := h'.tiles
    exact htiles.not_mem_of_cons (by simp [hb]) hp
  · intro order ho hnone b hb
    by_contra hge
    rcases hf : findLevel s.levels (pmmMaxOrder + 1 - order) order with _ | i
    · have := findLevel_eq_none hf b.order (by omega) (by have := hb.1; omega)
      have hm := hb.2
      rw [this] at hm
      cases hm
    · obtain ⟨n, s', ha, -⟩ := pmmAlloc_owned h ho hf
      rw [hnone] at ha
      cases ha
  · intro b hb
    have hP : b.head ∈ managed map := hmP b (Or.inr hb) _ b.head_mem
    obtain ⟨s', hs', -⟩ := pmmFree_owned h hb (managed_lt hmap hP)
    rw [hs']
    rfl

/-- A map with a reserved page between two usable ranges, and a run with splits and merges. -/
def sampleMap : List MemmapEntry :=
  [⟨0x1000, 0x4000, .usable⟩, ⟨0x5000, 0x1000, .reserved⟩, ⟨0x6000, 0x6000, .usable⟩]

theorem sampleMap_ok : MemmapOk archKernelMinVirt sampleMap :=
  ⟨by decide, by decide, by decide, by decide⟩

def sampleOps : List Op :=
  [.alloc 0, .alloc 1, .alloc 0, .free 0x2000, .alloc 2, .free 0x6000]

theorem pmm_run_ownership_sample :
    MemmapOk archKernelMinVirt sampleMap ∧
      ∃ s₀ s out, pmmInit archKernelMinVirt sampleMap = some s₀ ∧
        Run.run (step archKernelMinVirt) (s₀, []) sampleOps = some (s, out) ∧
          Ownership archKernelMinVirt sampleMap s out := by
  obtain ⟨s₀, h₀, ⟨s, out⟩, hr, -⟩ : ∃ s₀ ∈ pmmInit archKernelMinVirt sampleMap,
      ∃ x ∈ Run.run (step archKernelMinVirt) (s₀, []) sampleOps, True := by decide
  exact ⟨sampleMap_ok, s₀, s, out, h₀, hr, pmm_run_ownership sampleMap_ok h₀ hr⟩

end LykOS.Pmm
