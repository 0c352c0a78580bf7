import LykOS.Arch.X8664.Ptm.Model
import LykOS.Lib.Bits

/-!
# The tree of page tables

The places of the tables of all maps (`scheme`): the table at `(some j, path)` is below the PML4 of map `j`,
and the table at `(none, path)` below `higher_half_entries`, if these are shared. `Inv` says that the tables
in memory are laid out at these places, and each operation keeps it. The tables that `get_next_level` adds
on the way change no leaf, so a mapping changes one leaf.
-/

namespace LykOS.X8664

open Radix Function List

/-! ## Entries -/

/-- A frame that an entry can point to. -/
def IsFrame (f : ℕ) : Prop := f % archPageGran = 0 ∧ f < 2 ^ 52

instance (f : ℕ) : Decidable (IsFrame f) := inferInstanceAs (Decidable (_ ∧ _))

/-- What an entry points to. -/
def nextTable (e : ℕ) : Option ℕ := if e &&& present ≠ 0 then some (pteGetAddr e) else none

theorem and_present (e : ℕ) : e &&& present = e % 2 := by
  show e &&& 1 = e % 2
  rw [Nat.and_one_is_mod]

theorem and_huge (e : ℕ) : e &&& huge = e / 128 % 2 * 128 := Bits.and_field e 7 1

theorem pteGetAddr_eq (e : ℕ) : pteGetAddr e = e / 4096 % 2 ^ 40 * 4096 := Bits.and_field e 12 40

variable {f flags v : ℕ} {shared : Bool}

theorem or_flags (hf : IsFrame f) (h : flags < 4096) : f ||| flags = f + flags := by
  obtain ⟨hmod, -⟩ := hf
  unfold archPageGran at hmod
  obtain ⟨n, rfl⟩ : ∃ n, f = n * 2 ^ 12 := ⟨f / 4096, by omega⟩
  exact Bits.mul_or h

theorem entry_eq (hf : IsFrame f) : f ||| present ||| write ||| user = f + 7 := by
  rw [Nat.or_assoc, Nat.or_assoc]
  exact or_flags hf (by decide)

theorem add_and_huge (hf : IsFrame f) (h : flags % 256 < 128) : (f + flags) &&& huge = 0 := by
  have hmod := hf.1
  unfold archPageGran at hmod
  rw [and_huge]
  omega

theorem globalEntry_eq (hf : IsFrame f) : f ||| present ||| write ||| global = f + 259 := by
  rw [Nat.or_assoc, Nat.or_assoc]
  exact or_flags hf (by decide)

theorem pteGetAddr_add (hf : IsFrame f) (h : flags < 4096) : pteGetAddr (f + flags) = f := by
  obtain ⟨hmod, hlt⟩ := hf
  unfold archPageGran at hmod
  rw [pteGetAddr_eq]
  omega

theorem nextTable_zero : nextTable 0 = none := rfl

theorem nextTable_add (hf : IsFrame f) (h : flags < 4096) (hodd : flags % 2 = 1) :
    nextTable (f + flags) = some f := by
  have hmod := hf.1
  unfold archPageGran at hmod
  have hp : (f + flags) &&& present ≠ 0 := by
    rw [and_present]
    omega
  unfold nextTable
  rw [if_pos hp, pteGetAddr_add hf h]

theorem nextTable_eq_none {e : ℕ} : nextTable e = none ↔ e &&& present = 0 := by
  unfold nextTable
  split_ifs with h
  · exact ⟨(fun hc => by cases hc), fun hc => absurd hc h⟩
  · exact ⟨fun _ => not_not.mp h, fun _ => rfl⟩

/-! ## Addresses -/

theorem tableEntry_val (virt shift : ℕ) : (tableEntry virt shift).val = virt / 2 ^ shift % 512 := by
  show (virt >>> shift) &&& (2 ^ 9 - 1) = _
  rw [Nat.and_two_pow_sub_one_eq_mod, Nat.shiftRight_eq_div_pow]

def Canonical (virt : ℕ) : Prop := virt < 2 ^ 47 ∨ 2 ^ 64 - 2 ^ 47 ≤ virt ∧ virt < 2 ^ 64

instance (virt : ℕ) : Decidable (Canonical virt) := inferInstanceAs (Decidable (_ ∨ _))

/-- The address of a canonical page. -/
def CanonicalPage (virt : ℕ) : Prop := Canonical virt ∧ virt % archPageGran = 0

instance (virt : ℕ) : Decidable (CanonicalPage virt) := inferInstanceAs (Decidable (_ ∧ _))

theorem tableEntry_add {o shift : ℕ} (hv : v % archPageGran = 0) (ho : o < archPageGran)
    (hs : 12 ≤ shift) : tableEntry (v + o) shift = tableEntry v shift := by
  unfold archPageGran at hv ho
  apply Fin.ext
  rw [tableEntry_val, tableEntry_val]
  obtain ⟨k, rfl⟩ : ∃ k, shift = 12 + k := ⟨shift - 12, by omega⟩
  rw [Nat.pow_add, ← Nat.div_div_eq_div_mul, ← Nat.div_div_eq_div_mul,
    show (v + o) / 2 ^ 12 = v / 2 ^ 12 by omega]

theorem tableEntry_inj {v' : ℕ} (hv : CanonicalPage v) (hv' : CanonicalPage v')
    (hpath : tablePath v = tablePath v') (hidx : tableEntry v 12 = tableEntry v' 12) : v = v' := by
  unfold CanonicalPage Canonical archPageGran at hv hv'
  simp only [tablePath, List.cons.injEq, and_true, Fin.ext_iff, tableEntry_val] at hpath hidx
  obtain ⟨h39, h30, h21⟩ := hpath
  have hupper : v / 2 ^ 30 % 2 ^ 18 = v' / 2 ^ 30 % 2 ^ 18 := by
    clear hv hv' h21 hidx
    omega
  have hlower : v / 2 ^ 12 % 2 ^ 18 = v' / 2 ^ 12 % 2 ^ 18 := by
    clear hv hv' h39 h30 hupper
    omega
  clear h39 h30 h21 hidx
  omega

theorem tableEntry_higher (hv : Canonical v) :
    256 ≤ (tableEntry v 39).val ↔ archKernelMinVirt ≤ v := by
  unfold Canonical at hv
  unfold archKernelMinVirt
  rw [tableEntry_val]
  omega

/-! ## Places -/

/-- A root, which is a map or `higher_half_entries`, and the path from it, last entry first. -/
abbrev Place := Option ℕ × List (Fin 512)

/-- The place that an entry of the table at a place points to. -/
def childPlace (shared : Bool) (p : Place) (i : Fin 512) : Place :=
  if p.2 = [] ∧ shared = true ∧ 256 ≤ i.val then (none, [i]) else (p.1, i :: p.2)

theorem childPlace_snd (shared : Bool) (p : Place) (i : Fin 512) :
    (childPlace shared p i).2 = i :: p.2 := by
  unfold childPlace
  split_ifs with h
  · rw [h.1]
  · rfl

/-- The places of all page tables. -/
def scheme (shared : Bool) : Scheme ℕ (Fin 512) ℕ Place where
  next := nextTable
  zero := 0
  next_zero := nextTable_zero
  child := childPlace shared
  depth p := p.2.length
  depth_child p i := by rw [childPlace_snd]; rfl
  levels := 3

theorem childPlace_inj {p q : Place} {i j : Fin 512} (hp : ¬ (p.2 = [] ∧ shared = true ∧ 256 ≤ i.val))
    (h : childPlace shared q j = childPlace shared p i) : q = p ∧ j = i := by
  have hsnd := congrArg Prod.snd h
  rw [childPlace_snd, childPlace_snd, List.cons.injEq] at hsnd
  obtain ⟨rfl, hpath⟩ := hsnd
  unfold childPlace at h
  rw [if_neg hp, if_neg (by rw [hpath]; exact hp)] at h
  exact ⟨Prod.ext (Prod.mk.inj h).1 hpath, rfl⟩

theorem below_snd (shared : Bool) (p : Place) (path : List (Fin 512)) :
    ((scheme shared).below p path).2 = path.reverse ++ p.2 := by
  induction path generalizing p with
  | nil => rfl
  | cons i path ih =>
    show ((scheme shared).below (childPlace shared p i) path).2 = _
    rw [ih, childPlace_snd, reverse_cons, append_assoc]
    rfl

theorem below_fst {p : Place} (hp : p.2 ≠ []) (path : List (Fin 512)) :
    ((scheme shared).below p path).1 = p.1 := by
  induction path generalizing p with
  | nil => rfl
  | cons i path ih =>
    show ((scheme shared).below (childPlace shared p i) path).1 = _
    rw [ih (by rw [childPlace_snd]; exact cons_ne_nil _ _)]
    unfold childPlace
    rw [if_neg fun h => hp h.1]

/-- The page is in the shared half. -/
def SharedPage (shared : Bool) (virt : ℕ) : Prop := shared = true ∧ archKernelMinVirt ≤ virt

instance (shared : Bool) (virt : ℕ) : Decidable (SharedPage shared virt) :=
  inferInstanceAs (Decidable (_ ∧ _))

/-- The place of the PML1 for an address in map `j`. -/
def leafPlace (shared : Bool) (j virt : ℕ) : Place :=
  (scheme shared).below (some j, []) (tablePath virt)

theorem leafPlace_fst {j : ℕ} (hv : Canonical v) :
    (leafPlace shared j v).1 = if SharedPage shared v then none else some j := by
  show ((scheme shared).below (childPlace shared (some j, []) (tableEntry v 39)) _).1 = _
  rw [below_fst (by rw [childPlace_snd]; exact cons_ne_nil _ _)]
  unfold childPlace
  by_cases hs : SharedPage shared v
  · rw [if_pos hs, if_pos ⟨rfl, hs.1, (tableEntry_higher hv).mpr hs.2⟩]
  · rw [if_neg hs, if_neg fun h => hs ⟨h.2.1, (tableEntry_higher hv).mp h.2.2⟩]

theorem leafPlace_snd (shared : Bool) (j v : ℕ) :
    (leafPlace shared j v).2 = (tablePath v).reverse := by
  unfold leafPlace
  rw [below_snd, List.append_nil]

theorem leafPlace_eq_iff {j j' v' : ℕ} (hv : CanonicalPage v) (hv' : CanonicalPage v') :
    (leafPlace shared j' v', tableEntry v' 12) = (leafPlace shared j v, tableEntry v 12) ↔
      v' = v ∧ (j' = j ∨ SharedPage shared v) := by
  constructor
  · intro h
    obtain ⟨hplace, hidx⟩ := Prod.mk.inj h
    have hsnd := congrArg Prod.snd hplace
    rw [leafPlace_snd, leafPlace_snd, reverse_inj] at hsnd
    obtain rfl := tableEntry_inj hv' hv hsnd hidx
    refine ⟨rfl, ?_⟩
    have hfst := congrArg Prod.fst hplace
    rw [leafPlace_fst hv'.1, leafPlace_fst hv'.1] at hfst
    by_cases hs : SharedPage shared v'
    · exact Or.inr hs
    · rw [if_neg hs, if_neg hs] at hfst
      exact Or.inl (Option.some.inj hfst)
  · rintro ⟨rfl, rfl | hs⟩
    · rfl
    · refine Prod.ext (Prod.ext ?_ ?_) rfl
      · show (leafPlace shared j' v').1 = (leafPlace shared j v').1
        rw [leafPlace_fst hv'.1, leafPlace_fst hv'.1, if_pos hs, if_pos hs]
      · show (leafPlace shared j' v').2 = (leafPlace shared j v').2
        rw [leafPlace_snd, leafPlace_snd]

/-! ## The invariant -/

/-- The frames that `pmm_alloc(0)` returns: different ones, until none is left. -/
structure FrameSupply where
  frames : ℕ → ℕ
  limit : ℕ
  isFrame : ∀ k < limit, IsFrame (frames k)
  injective : ∀ i < limit, ∀ k < limit, frames i = frames k → i = k

/-- The tables of the maps `maps` are laid out as `frame` says. -/
structure Inv (F : FrameSupply) (shared : Bool) (s : Ptm) (maps : List ℕ)
    (frame : Place → Option ℕ) : Prop where
  layout : Layout (scheme shared) s.tables frame
  taken : ∀ {p f}, frame p = some f → ∃ k < s.taken, f = F.frames k
  root : ∀ j, frame (some j, []) = maps[j]?
  unborn : ∀ j path, maps.length ≤ j → frame (some j, path) = none
  higher : ∀ i : Fin 256, nextTable (s.higherHalfEntries i) =
    if shared = true then frame (none, [⟨i + 256, by omega⟩]) else none
  allocated : shared = true → ∀ i : Fin 256, s.higherHalfEntries i &&& present ≠ 0
  higher_huge : ∀ i, s.higherHalfEntries i &&& huge = 0
  huge : ∀ {p f}, frame p = some f → p.2.length < 3 → ∀ i, s.tables f i &&& huge = 0

section Supply

variable {F : FrameSupply} {frame : Place → Option ℕ} {n : ℕ}
  (h : ∀ {p f}, frame p = some f → ∃ k < n, f = F.frames k)

include h

theorem FrameSupply.fresh (hlim : n < F.limit) (q : Place) : frame q ≠ some (F.frames n) := by
  intro hq
  obtain ⟨k, hk, he⟩ := h hq
  have := F.injective n hlim k (by omega) he
  omega

theorem FrameSupply.taken_update (p₀ : Place) {p : Place} {f : ℕ}
    (hp : update frame p₀ (some (F.frames n)) p = some f) : ∃ k < n + 1, f = F.frames k := by
  rw [update_apply] at hp
  split_ifs at hp
  · exact ⟨n, Nat.lt_succ_self _, (Option.some.inj hp).symm⟩
  · obtain ⟨k, hk, he⟩ := h hp
    exact ⟨k, Nat.lt_succ_of_lt hk, he⟩

end Supply

section Steps

variable {F : FrameSupply} {shared : Bool} {s : Ptm} {maps : List ℕ} {frame : Place → Option ℕ}

theorem Inv.fresh (h : Inv F shared s maps frame) (hlim : s.taken < F.limit) (q : Place) :
    frame q ≠ some (F.frames s.taken) := FrameSupply.fresh h.taken hlim q

theorem Inv.child_ne_none (h : Inv F shared s maps frame) {p : Place} {i : Fin 512}
    (hc : p.2 = [] ∧ shared = true ∧ 256 ≤ i.val) : frame (childPlace shared p i) ≠ none := by
  obtain ⟨hp, hs, hi⟩ := hc
  have hhigh := h.higher ⟨i - 256, by omega⟩
  rw [if_pos hs, show (⟨i - 256 + 256, by omega⟩ : Fin 512) = i from Fin.ext (by simp; omega)] at hhigh
  unfold childPlace
  rw [if_pos ⟨hp, hs, hi⟩, ← hhigh]
  intro hn
  exact h.allocated hs _ (nextTable_eq_none.mp hn)

theorem descend_false (frames : ℕ → ℕ) (shared : Bool) (path : List (Fin 512)) (table : ℕ) :
    descend frames false path s table = ((scheme shared).follow s.tables table path, s) := by
  induction path generalizing table with
  | nil => rfl
  | cons i path ih =>
    have hfollow : (scheme shared).follow s.tables table (i :: path) =
        (nextTable (s.tables table i)).bind fun g => (scheme shared).follow s.tables g path := rfl
    rw [hfollow]
    unfold descend getNextLevel nextTable
    by_cases hp : s.tables table i &&& present ≠ 0
    · rw [if_pos hp, if_pos hp]
      exact ih _
    · rw [if_neg hp, if_neg hp, if_pos rfl]
      rfl

theorem getNextLevel_spec (h : Inv F shared s maps frame) {p : Place} {f : ℕ} (hp : frame p = some f)
    (hd : p.2.length < 3) (i : Fin 512) (hlim : (getNextLevel F.frames s f i true).2.taken ≤ F.limit) :
    ∃ g s' frame', getNextLevel F.frames s f i true = (some g, s') ∧
      Inv F shared s' maps frame' ∧ frame' (childPlace shared p i) = some g ∧
      ∀ q j, q.2.length = 3 →
        (scheme shared).leaf s'.tables frame' q j = (scheme shared).leaf s.tables frame q j := by
  have hlink : nextTable (s.tables f i) = frame (childPlace shared p i) := h.layout.link hd hp i
  unfold getNextLevel at hlim ⊢
  by_cases hpres : s.tables f i &&& present ≠ 0
  · rw [if_pos hpres]
    refine ⟨_, s, frame, rfl, h, ?_, fun _ _ _ => rfl⟩
    rw [← hlink]
    exact if_pos hpres
  · rw [if_neg hpres, if_neg (by decide)] at hlim ⊢
    have hlt : s.taken < F.limit := hlim
    have hnone : frame (childPlace shared p i) = none := by
      rw [← hlink]
      exact if_neg hpres
    have hchild : ¬ (p.2 = [] ∧ shared = true ∧ 256 ≤ i.val) := fun hc => h.child_ne_none hc hnone
    have hentry := entry_eq (F.isFrame s.taken hlt)
    obtain ⟨hlayout, hleaf⟩ := h.layout.grow hp hd hnone (h.fresh hlt)
      (e := F.frames s.taken ||| present ||| write ||| user)
      (by rw [hentry]; exact nextTable_add (F.isFrame _ hlt) (by decide) (by decide))
      (fun q j hq => childPlace_inj hchild hq)
    have hfg : f ≠ F.frames s.taken := fun hfg => h.fresh hlt p (hfg ▸ hp)
    refine ⟨_, _, _, rfl, ⟨hlayout, FrameSupply.taken_update h.taken _, ?_, ?_, ?_, h.allocated,
      h.higher_huge, ?_⟩, update_self .., hleaf⟩
    · intro j
      rw [update_of_ne, h.root j]
      intro hc
      have := congrArg Prod.snd hc
      rw [show ((scheme shared).child p i).2 = i :: p.2 from childPlace_snd ..] at this
      cases this
    · intro j path hj
      rw [update_of_ne, h.unborn j path hj]
      intro hc
      have hc' : (some j, path) = childPlace shared p i := hc
      unfold childPlace at hc'
      rw [if_neg hchild] at hc'
      have hroot : p = (some j, p.2) := Prod.ext (Prod.mk.inj hc').1.symm rfl
      rw [hroot, h.unborn j _ hj] at hp
      cases hp
    · intro k
      show nextTable (s.higherHalfEntries k) = _
      rw [h.higher k]
      by_cases hs : shared = true
      · rw [if_pos hs, if_pos hs, update_of_ne]
        intro hc
        have hk := h.higher k
        rw [if_pos hs, hc, show frame ((scheme shared).child p i) = none from hnone] at hk
        exact h.allocated hs k (nextTable_eq_none.mp hk)
      · rw [if_neg hs, if_neg hs]
    · intro q f' hq hlen j
      show Radix.setEntry (update s.tables (F.frames s.taken) fun _ => 0) f i _ f' j &&& huge = 0
      by_cases hff : f' = f
      · subst hff
        by_cases hj : j = i
        · subst hj
          rw [setEntry_self, hentry]
          exact add_and_huge (F.isFrame _ hlt) (by decide)
        · rw [setEntry_of_index_ne _ _ hj, update_of_ne hfg]
          exact h.huge hp hd j
      · rw [setEntry_of_ne _ _ hff]
        by_cases hfn : f' = F.frames s.taken
        · rw [hfn, update_self]
          rfl
        · rw [update_of_ne hfn]
          rw [update_apply] at hq
          split_ifs at hq
          · exact absurd (Option.some.inj hq).symm hfn
          · exact h.huge hq hlen j

theorem taken_le_getNextLevel (frames : ℕ → ℕ) (s : Ptm) (f : ℕ) (i : Fin 512) (alloc : Bool) :
    s.taken ≤ (getNextLevel frames s f i alloc).2.taken := by
  unfold getNextLevel
  split_ifs
  · exact Nat.le_refl _
  · exact Nat.le_refl _
  · exact Nat.le_succ _

theorem taken_le_descend (frames : ℕ → ℕ) (alloc : Bool) (path : List (Fin 512)) (s : Ptm) (f : ℕ) :
    s.taken ≤ (descend frames alloc path s f).2.taken := by
  induction path generalizing s f with
  | nil => exact Nat.le_refl _
  | cons i path ih =>
    have hle := taken_le_getNextLevel frames s f i alloc
    unfold descend
    split
    · next heq => rwa [heq] at hle
    · next heq =>
      rw [heq] at hle
      exact Nat.le_trans hle (ih _ _)

theorem exists_descend (frames : ℕ → ℕ) (path : List (Fin 512)) (s : Ptm) (f : ℕ) :
    ∃ g s', descend frames true path s f = (some g, s') := by
  induction path generalizing s f with
  | nil => exact ⟨f, s, rfl⟩
  | cons i path ih =>
    unfold descend getNextLevel
    split_ifs with h₁ h₂
    · exact ih _ _
    · cases h₂
    · exact ih _ _

theorem descend_spec (path : List (Fin 512)) :
    ∀ {s : Ptm} {frame : Place → Option ℕ} {p : Place} {f : ℕ}, Inv F shared s maps frame →
      frame p = some f → p.2.length + path.length ≤ 3 →
      (descend F.frames true path s f).2.taken ≤ F.limit →
      ∃ g s' frame', descend F.frames true path s f = (some g, s') ∧
        Inv F shared s' maps frame' ∧ frame' ((scheme shared).below p path) = some g ∧
        ∀ q j, q.2.length = 3 →
          (scheme shared).leaf s'.tables frame' q j = (scheme shared).leaf s.tables frame q j := by
  induction path with
  | nil => exact fun h hp _ _ => ⟨_, _, _, rfl, h, hp, fun _ _ _ => rfl⟩
  | cons i path ih =>
    intro s frame p f h hp hlen hlim
    rw [length_cons] at hlen
    have hlim₁ : (getNextLevel F.frames s f i true).2.taken ≤ F.limit := by
      refine Nat.le_trans ?_ hlim
      unfold descend
      split
      · next heq => rw [heq]
      · next heq =>
        rw [heq]
        exact taken_le_descend ..
    obtain ⟨g₁, s₁, frame₁, heq, h₁, hp₁, hleaf₁⟩ := getNextLevel_spec h hp (by omega) i hlim₁
    have hsnd := congrArg List.length (childPlace_snd shared p i)
    rw [length_cons] at hsnd
    have hnext : descend F.frames true (i :: path) s f = descend F.frames true path s₁ g₁ := by
      rw [descend, heq]
    rw [hnext] at hlim ⊢
    obtain ⟨g, s', frame', heq', h', hp', hleaf'⟩ := ih h₁ hp₁ (by omega) hlim
    exact ⟨g, s', frame', heq', h', hp', fun q j hq => (hleaf' q j hq).trans (hleaf₁ q j hq)⟩

theorem Inv.setEntry (h : Inv F shared s maps frame) {p : Place} {f : ℕ} (hp : frame p = some f)
    (hd : p.2.length = 3) (i : Fin 512) (e : ℕ) :
    Inv F shared (s.setEntry f i e) maps frame ∧
      (scheme shared).leaf (s.setEntry f i e).tables frame p i = e ∧
      ∀ q j, (q, j) ≠ (p, i) → (scheme shared).leaf (s.setEntry f i e).tables frame q j =
        (scheme shared).leaf s.tables frame q j := by
  obtain ⟨hlayout, hnew, hold⟩ := h.layout.write hp hd
  refine ⟨⟨hlayout, h.taken, h.root, h.unborn, h.higher, h.allocated, h.higher_huge, ?_⟩, hnew, hold⟩
  intro q f' hq hlen j
  have hff : f' ≠ f := by
    rintro rfl
    rw [h.layout.inj hq hp] at hlen
    omega
  have hsame : (s.setEntry f i e).tables f' = s.tables f' := setEntry_of_ne _ _ hff
  rw [hsame]
  exact h.huge hq hlen j

theorem length_tablePath (virt : ℕ) : (tablePath virt).length = 3 := rfl

variable {j m : ℕ}

theorem Inv.root_eq (h : Inv F shared s maps frame) (hj : maps[j]? = some m) :
    frame (some j, []) = some m := by rw [h.root, hj]

theorem length_leafPlace (shared : Bool) (j virt : ℕ) : (leafPlace shared j virt).2.length = 3 := by
  rw [leafPlace_snd, length_reverse, length_tablePath]

theorem Inv.walk (h : Inv F shared s maps frame) (hj : maps[j]? = some m) (virt : ℕ) :
    (descend F.frames false (tablePath virt) s m).1 = frame (leafPlace shared j virt) := by
  rw [descend_false F.frames shared]
  exact h.layout.follow_eq (h.root_eq hj) (Nat.le_refl 3)

theorem archPtmVirtToPhys_eq (h : Inv F shared s maps frame) (hj : maps[j]? = some m)
    (virt : ℕ) {e : ℕ}
    (he : (scheme shared).leaf s.tables frame (leafPlace shared j virt) (tableEntry virt 12) = e) :
    archPtmVirtToPhys F.frames s m virt =
      if e &&& present = 0 then badAddress else pteGetAddr e + (virt &&& 0xFFF) := by
  unfold archPtmVirtToPhys
  rw [h.walk hj]
  unfold Scheme.leaf at he
  cases hfr : frame (leafPlace shared j virt) with
  | none =>
    rw [hfr] at he
    have hz : 0 = e := he
    rw [← hz, Nat.zero_and, if_pos rfl]
  | some table =>
    rw [hfr] at he
    have htable : s.tables table (tableEntry virt 12) = e := he
    rw [← htable]

theorem archPtmMap_spec (h : Inv F shared s maps frame) (hj : maps[j]? = some m) {v phys : ℕ}
    (hv : v % archPageGran = 0) (hp : IsFrame phys) :
    ∃ s', archPtmMap F.frames s m v phys archPageGran = some s' ∧ (s'.taken ≤ F.limit → ∃ frame',
      Inv F shared s' maps frame' ∧
      (scheme shared).leaf s'.tables frame' (leafPlace shared j v) (tableEntry v 12) = phys + 7 ∧
      ∀ q i, q.2.length = 3 → (q, i) ≠ (leafPlace shared j v, tableEntry v 12) →
        (scheme shared).leaf s'.tables frame' q i = (scheme shared).leaf s.tables frame q i) := by
  have hg₁ : (guard (v % archPageGran = 0) : Option Unit) = some () := if_pos hv
  have hg₂ : (guard (phys % archPageGran = 0) : Option Unit) = some () := if_pos hp.1
  obtain ⟨table, s₁, heq⟩ := exists_descend F.frames (tablePath v) s m
  refine ⟨s₁.setEntry table (tableEntry v 12) (phys ||| present ||| write ||| user), ?_, fun hlim => ?_⟩
  · unfold archPtmMap
    simp only [hg₁, hg₂, heq, Option.bind_eq_bind, Option.bind_some, Option.pure_def]
  have hlim₁ : (descend F.frames true (tablePath v) s m).2.taken ≤ F.limit := by
    rw [heq]
    exact hlim
  obtain ⟨table', s₁', frame', heq', h₁, hplace, hleaf₁⟩ :=
    descend_spec (tablePath v) h (h.root_eq hj) (Nat.le_refl 3) hlim₁
  cases heq.symm.trans heq'
  obtain ⟨h', hnew, hold⟩ := h₁.setEntry hplace (length_leafPlace shared j v) (tableEntry v 12)
    (phys ||| present ||| write ||| user)
  exact ⟨frame', h', hnew.trans (entry_eq hp), fun q i hq hne =>
    (hold q i hne).trans (hleaf₁ q i hq)⟩

theorem archPtmUnmap_spec (h : Inv F shared s maps frame) (hj : maps[j]? = some m) {v phys : ℕ}
    (hv : v % archPageGran = 0) (hp : phys % archPageGran = 0) :
    ∃ s', archPtmUnmap F.frames s m v phys archPageGran = some s' ∧ Inv F shared s' maps frame ∧
      (scheme shared).leaf s'.tables frame (leafPlace shared j v) (tableEntry v 12) = 0 ∧
      ∀ q i, (q, i) ≠ (leafPlace shared j v, tableEntry v 12) →
        (scheme shared).leaf s'.tables frame q i = (scheme shared).leaf s.tables frame q i := by
  have hg₁ : (guard (v % archPageGran = 0) : Option Unit) = some () := if_pos hv
  have hg₂ : (guard (phys % archPageGran = 0) : Option Unit) = some () := if_pos hp
  unfold archPtmUnmap
  simp only [hg₁, hg₂, h.walk hj, Option.bind_eq_bind, Option.bind_some, Option.pure_def]
  cases hfr : frame (leafPlace shared j v) with
  | none =>
    refine ⟨s, rfl, h, ?_, fun _ _ _ => rfl⟩
    unfold Scheme.leaf
    rw [hfr]
    rfl
  | some table =>
    exact ⟨_, rfl, h.setEntry hfr (length_leafPlace shared j v) (tableEntry v 12) 0⟩

theorem archPtmNewMap_spec (h : Inv F shared s maps frame) (hlim : s.taken < F.limit) :
    ∃ frame', Inv F shared (archPtmNewMap F.frames s).2
        (maps ++ [(archPtmNewMap F.frames s).1]) frame' ∧
      ∀ q i, q.2.length = 3 → (scheme shared).leaf (archPtmNewMap F.frames s).2.tables frame' q i =
        (scheme shared).leaf s.tables frame q i := by
  have hentries : ∀ i, nextTable (newEntries s i) = frame (childPlace shared (some maps.length, []) i) := by
    intro i
    unfold newEntries childPlace
    by_cases hi : 256 ≤ i.val
    · rw [dif_pos hi, h.higher]
      by_cases hs : shared = true
      · rw [if_pos hs, if_pos ⟨rfl, hs, hi⟩]
        congr
        simp only
        omega
      · rw [if_neg hs, if_neg fun hc => hs hc.2.1, h.unborn _ _ (Nat.le_refl _)]
    · rw [dif_neg hi, if_neg fun hc => hi hc.2.2, h.unborn _ _ (Nat.le_refl _), nextTable_zero]
  obtain ⟨hlayout, hleaf⟩ := h.layout.add (p := (some maps.length, [])) (Nat.zero_le 1) (Nat.zero_lt_succ 2)
    (h.unborn _ _ (Nat.le_refl _)) (h.fresh hlim) (newEntries s) hentries
    (fun q k hq => absurd hq ((scheme shared).child_ne (Nat.zero_le _)))
  have hne : ∀ {q : Place}, q ≠ (some maps.length, []) →
      update frame (some maps.length, []) (some (F.frames s.taken)) q = frame q := fun hq =>
    update_of_ne hq ..
  refine ⟨_, ⟨hlayout, FrameSupply.taken_update h.taken _, ?_, ?_, ?_, h.allocated, h.higher_huge,
    ?_⟩, hleaf⟩
  · intro k
    by_cases hk : k = maps.length
    · subst hk
      rw [update_self, getElem?_concat_length]
      rfl
    · rw [hne fun hc => hk (Option.some.inj (Prod.mk.inj hc).1), h.root, getElem?_append]
      split_ifs with hlt
      · rfl
      · rw [getElem?_eq_none (by omega), getElem?_eq_none (by simp; omega)]
  · intro k path hk
    rw [length_append, length_singleton] at hk
    rw [hne fun hc => by have := Option.some.inj (Prod.mk.inj hc).1; omega, h.unborn k path (by omega)]
  · intro i
    show nextTable (s.higherHalfEntries i) = _
    rw [h.higher i, hne fun hc => by cases (Prod.mk.inj hc).1]
  · intro q f' hq hlen i
    show update s.tables (F.frames s.taken) (newEntries s) f' i &&& huge = 0
    rw [update_apply] at hq
    split_ifs at hq
    · cases hq
      rw [update_self]
      unfold newEntries
      split_ifs
      · exact h.higher_huge _
      · rfl
    · have hfn : f' ≠ F.frames s.taken := fun hc => h.fresh hlim q (hc ▸ hq)
      rw [update_of_ne hfn]
      exact h.huge hq hlen i

end Steps

/-! ## The start -/

/-- Before `arch_ptm_init`: any memory, and `higher_half_entries` is zero. -/
def boot (memory : ℕ → Fin 512 → ℕ) : Ptm := ⟨memory, fun _ => 0, 0⟩

theorem boot_inv (F : FrameSupply) (memory : ℕ → Fin 512 → ℕ) :
    Inv F false (boot memory) [] fun _ => none where
  layout := ⟨(fun hc => by cases hc), (fun _ hc => by cases hc), fun _ _ _ _ => rfl⟩
  taken hc := by cases hc
  root _ := rfl
  unborn _ _ _ := rfl
  higher _ := by
    rw [if_neg Bool.false_ne_true]
    exact nextTable_zero
  allocated hc := by cases hc
  higher_huge _ := Nat.zero_and _
  huge hc := by cases hc

/-- The top place of the shared half for an entry of `higher_half_entries`. -/
def topPlace (i : Fin 256) : Place := (none, [⟨i + 256, by omega⟩])

/-- The tables that `higher_half_entries` points to. -/
def kernelFrame (entries : Fin 256 → ℕ) : Place → Option ℕ
  | (none, [i]) => if h : 256 ≤ i.val then nextTable (entries ⟨i - 256, sub_lt_half i h⟩) else none
  | _ => none

theorem kernelFrame_topPlace (entries : Fin 256 → ℕ) (i : Fin 256) :
    kernelFrame entries (topPlace i) = nextTable (entries i) := by
  unfold topPlace kernelFrame
  dsimp only
  rw [dif_pos (Nat.le_add_left 256 i)]
  exact congrArg (fun k => nextTable (entries k)) (Fin.ext (Nat.add_sub_cancel ..))

theorem exists_topPlace {entries : Fin 256 → ℕ} {p : Place} (h : kernelFrame entries p ≠ none) :
    ∃ i, p = topPlace i := by
  unfold kernelFrame at h
  split at h
  · next i =>
    split_ifs at h with hi
    · have hval : i.val = i.val - 256 + 256 := by omega
      exact ⟨⟨i - 256, by omega⟩, congrArg (fun k => (none, [k])) (Fin.ext hval)⟩
    · exact absurd rfl h
  · exact absurd rfl h

theorem kernelFrame_update (entries : Fin 256 → ℕ) (i : Fin 256) (e : ℕ) :
    kernelFrame (update entries i e) =
      update (kernelFrame entries) (topPlace i) (nextTable e) := by
  funext p
  by_cases hp : p = topPlace i
  · rw [hp, kernelFrame_topPlace, update_self, update_self]
  · rw [update_of_ne hp]
    by_cases hk : ∃ k, p = topPlace k
    · obtain ⟨k, rfl⟩ := hk
      rw [kernelFrame_topPlace, kernelFrame_topPlace,
        update_of_ne fun hki => hp (by rw [hki])]
    · rw [not_not.mp fun h => hk (exists_topPlace h), not_not.mp fun h => hk (exists_topPlace h)]

/-- The invariant of the loop of `arch_ptm_init`. -/
structure InitInv (F : FrameSupply) (s : Ptm) : Prop where
  layout : Layout (scheme true) s.tables (kernelFrame s.higherHalfEntries)
  taken : ∀ {p f}, kernelFrame s.higherHalfEntries p = some f → ∃ k < s.taken, f = F.frames k
  empty : ∀ {p f}, kernelFrame s.higherHalfEntries p = some f → ∀ i, s.tables f i = 0
  higher_huge : ∀ i, s.higherHalfEntries i &&& huge = 0

variable {s s' : Ptm} {F : FrameSupply}

theorem initEntry_spec {i : Fin 256} (h : InitInv F s) (hlim : s.taken < F.limit)
    (hi : s.higherHalfEntries i = 0) (hs : initEntry F.frames s i = some s') :
    InitInv F s' ∧ s'.higherHalfEntries i &&& present ≠ 0 ∧
      ∀ k, k ≠ i → s'.higherHalfEntries k = s.higherHalfEntries k := by
  have hframe := F.isFrame s.taken hlim
  have hentry := globalEntry_eq hframe
  have hnext : nextTable (F.frames s.taken + 259) = some (F.frames s.taken) :=
    nextTable_add hframe (by decide) (by decide)
  have hfresh : ∀ q, kernelFrame s.higherHalfEntries q ≠ some (F.frames s.taken) :=
    FrameSupply.fresh h.taken hlim
  simp only [initEntry, Option.bind_eq_bind, Option.bind_eq_some_iff, Option.pure_def, hentry] at hs
  obtain ⟨_, -, hw⟩ := hs
  cases hw
  have hdeep : ∀ {q : Place}, q.2.length ≠ 1 → kernelFrame s.higherHalfEntries q = none := by
    intro q hq
    by_contra hne
    obtain ⟨k, rfl⟩ := exists_topPlace hne
    exact hq rfl
  have hchild : ∀ j, nextTable 0 =
      kernelFrame s.higherHalfEntries ((scheme true).child (topPlace i) j) := by
    intro j
    rw [hdeep, nextTable_zero]
    rw [show ((scheme true).child (topPlace i) j).2 = j :: (topPlace i).2 from childPlace_snd ..]
    exact Nat.succ_ne_self 1
  have hparent : ∀ q j, (scheme true).child q j = topPlace i →
      kernelFrame s.higherHalfEntries q = none := by
    intro q j hq
    apply hdeep
    have := congrArg (fun p : Place => p.2.length) hq
    rw [show ((scheme true).child q j).2 = j :: q.2 from childPlace_snd ..] at this
    intro hone
    rw [length_cons, hone] at this
    cases this
  obtain ⟨hlayout, -⟩ := h.layout.add (p := topPlace i) (Nat.le_refl 1) (show 1 < 3 by decide)
    (by rw [kernelFrame_topPlace, hi]; rfl) hfresh (fun _ => 0) hchild hparent
  refine ⟨⟨?_, ?_, ?_, ?_⟩, ?_, fun k hk => update_of_ne hk ..⟩
  · show Layout _ _ (kernelFrame (update _ i _))
    rw [kernelFrame_update, hnext]
    exact hlayout
  · intro p f hp
    rw [kernelFrame_update, hnext] at hp
    exact FrameSupply.taken_update h.taken _ hp
  · intro p f hp j
    show update s.tables (F.frames s.taken) (fun _ => 0) f j = 0
    rw [kernelFrame_update, hnext, update_apply] at hp
    split_ifs at hp
    · cases hp
      rw [update_self]
    · have hne : f ≠ F.frames s.taken := fun hc => hfresh p (hc ▸ hp)
      rw [update_of_ne hne, h.empty hp]
  · intro k
    show update s.higherHalfEntries i _ k &&& huge = 0
    by_cases hk : k = i
    · rw [hk, update_self]
      exact add_and_huge hframe (by decide)
    · rw [update_of_ne hk]
      exact h.higher_huge k
  · show update s.higherHalfEntries i _ i &&& present ≠ 0
    rw [update_self]
    exact fun hz => by
      have := nextTable_eq_none.mpr hz
      rw [hnext] at this
      cases this

theorem taken_initEntry {frames : ℕ → ℕ} {i : Fin 256} (hs : initEntry frames s i = some s') :
    s'.taken = s.taken + 1 := by
  simp only [initEntry, Option.bind_eq_bind, Option.bind_eq_some_iff, Option.pure_def] at hs
  obtain ⟨_, -, hw⟩ := hs
  cases hw
  rfl

theorem taken_initLoop {frames : ℕ → ℕ} {l : List (Fin 256)}
    (hs : l.foldlM (initEntry frames) s = some s') : s'.taken = s.taken + l.length := by
  induction l generalizing s with
  | nil =>
    cases hs
    rfl
  | cons i l ih =>
    rw [foldlM_cons, Option.bind_eq_bind, Option.bind_eq_some_iff] at hs
    obtain ⟨s₁, hs₁, hs⟩ := hs
    rw [ih hs, taken_initEntry hs₁, length_cons]
    exact Nat.succ_add_eq_add_succ _ _

theorem initLoop_spec {l : List (Fin 256)} (hnd : l.Nodup) (h : InitInv F s)
    (hl : ∀ i ∈ l, s.higherHalfEntries i = 0) (hs : l.foldlM (initEntry F.frames) s = some s')
    (hlim : s'.taken ≤ F.limit) :
    InitInv F s' ∧ (∀ i ∈ l, s'.higherHalfEntries i &&& present ≠ 0) ∧
      ∀ i, i ∉ l → s'.higherHalfEntries i = s.higherHalfEntries i := by
  induction l generalizing s with
  | nil =>
    cases hs
    exact ⟨h, (fun _ hc => by cases hc), fun _ _ => rfl⟩
  | cons i l ih =>
    obtain ⟨hi, hnd⟩ := nodup_cons.mp hnd
    rw [foldlM_cons, Option.bind_eq_bind, Option.bind_eq_some_iff] at hs
    obtain ⟨s₁, hs₁, hs⟩ := hs
    have hlt : s.taken < F.limit := by
      have h₁ := taken_initEntry hs₁
      have h₂ := taken_initLoop hs
      omega
    obtain ⟨h₁, hpres, hold⟩ := initEntry_spec h hlt (hl i mem_cons_self) hs₁
    have hl₁ : ∀ k ∈ l, s₁.higherHalfEntries k = 0 := fun k hk => by
      rw [hold k (ne_of_mem_of_not_mem hk hi), hl k (mem_cons_of_mem _ hk)]
    obtain ⟨h', hpres', hold'⟩ := ih hnd h₁ hl₁ hs
    refine ⟨h', fun k hk => ?_, fun k hk => ?_⟩
    · rcases mem_cons.mp hk with rfl | hk
      · rw [hold' k hi]
        exact hpres
      · exact hpres' k hk
    · rw [mem_cons, not_or] at hk
      rw [hold' k hk.2, hold k hk.1]

theorem archPtmInit_spec {memory : ℕ → Fin 512 → ℕ} (hs : archPtmInit F.frames (boot memory) = some s)
    (hlim : s.taken ≤ F.limit) : Inv F true s [] (kernelFrame s.higherHalfEntries) := by
  have hnone : kernelFrame (boot memory).higherHalfEntries = fun _ => none := by
    funext p
    by_contra hne
    obtain ⟨k, rfl⟩ := exists_topPlace hne
    rw [kernelFrame_topPlace] at hne
    exact hne nextTable_zero
  have h₀ : InitInv F (boot memory) := by
    refine ⟨?_, ?_, ?_, fun _ => Nat.zero_and _⟩
    · rw [hnone]
      exact ⟨(fun hc => by cases hc), (fun _ hc => by cases hc), fun _ _ _ _ => rfl⟩
    · intro p f hp
      rw [hnone] at hp
      cases hp
    · intro p f hp
      rw [hnone] at hp
      cases hp
  obtain ⟨h, hpres, -⟩ := initLoop_spec (nodup_finRange 256) h₀ (fun _ _ => rfl) hs hlim
  refine ⟨h.layout, h.taken, fun _ => rfl, fun _ _ _ => rfl, fun i => ?_, fun _ i => ?_,
    h.higher_huge, fun hp _ i => ?_⟩
  · rw [if_pos rfl]
    exact (kernelFrame_topPlace _ i).symm
  · exact hpres i (mem_finRange i)
  · rw [h.empty hp i, Nat.zero_and]

end LykOS.X8664
