import Mathlib.Data.List.Nodup
import Mathlib.Data.Option.Basic

/-!
# Tables of tables

A table has an entry for each index, and an entry may point to a table of the next level. A `Scheme` names
the places where tables can be: the table at `p` points with entry `i` to the table at `child p i`. Tables
are shared where several entries point to one place. A `Layout` says which table is at which place: no table
is at two places, and each entry points to what is at its place. `leaf` reads the tables of the last level
as one function.

What can be done to the tables: a place without a table gets an empty one (`Layout.grow`), which changes no
leaf; a leaf is written (`Layout.write`), which changes no other leaf; a table with given entries is added
at the top (`Layout.add`).
-/

namespace Radix

open Function List

/-- Entries, and the places of tables. -/
structure Scheme (F ι E P : Type*) where
  next : E → Option F
  zero : E
  next_zero : next zero = none
  child : P → ι → P
  depth : P → ℕ
  depth_child : ∀ p i, depth (child p i) = depth p + 1
  levels : ℕ

variable {F ι E P : Type*}

/-- The place where a path leads to. -/
def Scheme.below (S : Scheme F ι E P) (p : P) (is : List ι) : P := is.foldl S.child p

/-- The table that a path leads to. -/
def Scheme.follow (S : Scheme F ι E P) (mem : F → ι → E) (f : F) : List ι → Option F
  | [] => some f
  | i :: is => (S.next (mem f i)).bind fun g => S.follow mem g is

def Scheme.leaf (S : Scheme F ι E P) (mem : F → ι → E) (frame : P → Option F) (p : P) (i : ι) : E :=
  (frame p).elim S.zero fun f => mem f i

/-- `frame p` is the table at the place `p`, if there is one. -/
structure Layout (S : Scheme F ι E P) (mem : F → ι → E) (frame : P → Option F) : Prop where
  inj : ∀ {p q f}, frame p = some f → frame q = some f → p = q
  link : ∀ {p f}, S.depth p < S.levels → frame p = some f →
    ∀ i, S.next (mem f i) = frame (S.child p i)
  up : ∀ p i j, frame (S.child p i) = none → frame (S.child (S.child p i) j) = none

def setEntry [DecidableEq F] [DecidableEq ι] (mem : F → ι → E) (f : F) (i : ι) (e : E) : F → ι → E :=
  Function.update mem f (Function.update (mem f) i e)

section SetEntry

variable [DecidableEq F] [DecidableEq ι] (mem : F → ι → E) {f g : F} {i j : ι} (e : E)

theorem setEntry_self : setEntry mem f i e f i = e := by
  unfold setEntry
  rw [update_self, update_self]

theorem setEntry_of_ne (h : g ≠ f) : setEntry mem f i e g = mem g := by
  unfold setEntry
  rw [update_of_ne h]

theorem setEntry_of_index_ne (h : j ≠ i) : setEntry mem f i e f j = mem f j := by
  unfold setEntry
  rw [update_self, update_of_ne h]

end SetEntry

variable {S : Scheme F ι E P} {mem : F → ι → E} {frame : P → Option F}

theorem Scheme.child_ne (S : Scheme F ι E P) {p q : P} {i : ι} (h : S.depth p ≤ S.depth q) :
    S.child q i ≠ p := by
  intro he
  have := S.depth_child q i
  rw [he] at this
  omega

namespace Layout

/-! ## Following a path -/

theorem below_eq_none (h : Layout S mem frame) {p : P} {i : ι} (hn : frame (S.child p i) = none)
    (is : List ι) : frame (S.below (S.child p i) is) = none := by
  induction is generalizing p i with
  | nil => exact hn
  | cons j is ih => exact ih (h.up p i j hn)

theorem follow_eq (h : Layout S mem frame) {p : P} {f : F} (hp : frame p = some f) {is : List ι}
    (hd : S.depth p + is.length ≤ S.levels) : S.follow mem f is = frame (S.below p is) := by
  induction is generalizing p f with
  | nil => exact hp.symm
  | cons i is ih =>
    rw [length_cons] at hd
    have hlink := h.link (by omega) hp i
    show (S.next (mem f i)).bind _ = frame (S.below (S.child p i) is)
    rw [hlink]
    cases hc : frame (S.child p i) with
    | none => exact (h.below_eq_none hc is).symm
    | some g =>
      have hdepth := S.depth_child p i
      exact ih hc (by omega)

/-! ## Changing the tables -/

section Update

variable [DecidableEq F] [DecidableEq ι] [DecidableEq P] {p : P} {f g : F} {i : ι} {e : E}

omit [DecidableEq F] [DecidableEq ι] in
theorem inj_update (h : Layout S mem frame) (hg : ∀ q, frame q ≠ some g) {q₁ q₂ : P} {f' : F}
    (h₁ : update frame p (some g) q₁ = some f')
    (h₂ : update frame p (some g) q₂ = some f') : q₁ = q₂ := by
  rw [update_apply] at h₁ h₂
  split_ifs at h₁ h₂ with hq₁ hq₂ hq₂
  · exact hq₁.trans hq₂.symm
  · exact absurd (h₂.trans h₁.symm) (hg q₂)
  · exact absurd (h₁.trans h₂.symm) (hg q₁)
  · exact h.inj h₁ h₂

theorem grow (h : Layout S mem frame) (hp : frame p = some f) (hd : S.depth p < S.levels)
    (hnone : frame (S.child p i) = none) (hg : ∀ q, frame q ≠ some g) (he : S.next e = some g)
    (hown : ∀ q j, S.child q j = S.child p i → q = p ∧ j = i) :
    Layout S (setEntry (update mem g fun _ => S.zero) f i e)
        (update frame (S.child p i) (some g)) ∧
      ∀ q j, S.depth q = S.levels →
        S.leaf (setEntry (update mem g fun _ => S.zero) f i e)
          (update frame (S.child p i) (some g)) q j = S.leaf mem frame q j := by
  set mem' := setEntry (update mem g fun _ => S.zero) f i e with hmem'
  set frame' := update frame (S.child p i) (some g) with hframe'
  have hfg : g ≠ f := fun hgf => hg p (hgf ▸ hp)
  have hnew : frame' (S.child p i) = some g := update_self ..
  have hold : ∀ {q}, q ≠ S.child p i → frame' q = frame q := fun hq => update_of_ne hq ..
  have hmemg : ∀ j, mem' g j = S.zero := by
    intro j
    rw [hmem', setEntry_of_ne _ _ hfg, update_self]
  have hmemf : ∀ j, j ≠ i → mem' f j = mem f j := by
    intro j hj
    rw [hmem', setEntry_of_index_ne _ _ hj, update_of_ne (Ne.symm hfg)]
  have hmemo : ∀ f', f' ≠ f → f' ≠ g → mem' f' = mem f' := by
    intro f' hf hg'
    rw [hmem', setEntry_of_ne _ _ hf, update_of_ne hg']
  refine ⟨⟨?_, ?_, ?_⟩, ?_⟩
  · exact fun h₁ h₂ => h.inj_update hg h₁ h₂
  · intro q f' hq hf' j
    by_cases hqc : q = S.child p i
    · subst hqc
      cases hnew.symm.trans hf'
      rw [hmemg, S.next_zero, hold (S.child_ne (Nat.le_refl _)), h.up p i j hnone]
    · rw [hold hqc] at hf'
      by_cases hff : f' = f
      · subst hff
        obtain rfl := h.inj hf' hp
        by_cases hj : j = i
        · subst hj
          rw [hmem', setEntry_self, he, hnew]
        · rw [hmemf j hj, h.link hq hf', hold fun hc => hj (hown q j hc).2]
      · have hfg' : f' ≠ g := fun hgg => hg q (hgg ▸ hf')
        rw [hmemo f' hff hfg', h.link hq hf', hold]
        intro hc
        obtain ⟨rfl, -⟩ := hown q j hc
        exact hff (Option.some.inj (hf'.symm.trans hp))
  · intro p' i' j' hn
    have hpc : S.child p' i' ≠ S.child p i := by
      intro hc
      rw [hc, hnew] at hn
      cases hn
    rw [hold hpc] at hn
    rw [hold, h.up p' i' j' hn]
    intro hc
    obtain ⟨hpp, -⟩ := hown _ _ hc
    rw [hpp, hp] at hn
    cases hn
  · intro q j hq
    unfold Scheme.leaf
    by_cases hqc : q = S.child p i
    · subst hqc
      rw [hnew, hnone]
      exact hmemg j
    · rw [hold hqc]
      cases hfr : frame q with
      | none => rfl
      | some f' =>
        have hff : f' ≠ f := by
          rintro rfl
          rw [h.inj hfr hp] at hq
          omega
        have hfg' : f' ≠ g := fun hgg => hg q (hgg ▸ hfr)
        show mem' f' j = mem f' j
        rw [hmemo f' hff hfg']

omit [DecidableEq P] in
theorem write (h : Layout S mem frame) (hp : frame p = some f) (hd : S.depth p = S.levels) :
    Layout S (setEntry mem f i e) frame ∧ S.leaf (setEntry mem f i e) frame p i = e ∧
      ∀ q j, (q, j) ≠ (p, i) → S.leaf (setEntry mem f i e) frame q j = S.leaf mem frame q j := by
  refine ⟨⟨h.inj, ?_, h.up⟩, ?_, ?_⟩
  · intro q f' hq hf' j
    have hff : f' ≠ f := by
      rintro rfl
      rw [h.inj hf' hp] at hq
      omega
    rw [setEntry_of_ne mem e hff, h.link hq hf']
  · unfold Scheme.leaf
    rw [hp]
    exact setEntry_self mem e
  · intro q j hne
    unfold Scheme.leaf
    cases hfr : frame q with
    | none => rfl
    | some f' =>
      show setEntry mem f i e f' j = mem f' j
      by_cases hff : f' = f
      · subst hff
        obtain rfl := h.inj hfr hp
        exact setEntry_of_index_ne mem e fun hj => hne (by rw [hj])
      · rw [setEntry_of_ne mem e hff]

omit [DecidableEq ι] in
theorem add (h : Layout S mem frame) (hd : S.depth p ≤ 1) (hl : S.depth p < S.levels)
    (hnone : frame p = none) (hg : ∀ q, frame q ≠ some g) (entries : ι → E)
    (hentries : ∀ j, S.next (entries j) = frame (S.child p j))
    (hown : ∀ q j, S.child q j = p → frame q = none) :
    Layout S (update mem g entries) (update frame p (some g)) ∧
      ∀ q j, S.depth q = S.levels → S.leaf (update mem g entries)
        (update frame p (some g)) q j = S.leaf mem frame q j := by
  have hold : ∀ {q}, q ≠ p → update frame p (some g) q = frame q := fun hq =>
    update_of_ne hq ..
  have hmem : ∀ {q f'}, frame q = some f' → update mem g entries f' = mem f' := fun hf' =>
    update_of_ne (fun hgg => hg _ (hgg ▸ hf')) ..
  refine ⟨⟨fun h₁ h₂ => h.inj_update hg h₁ h₂, ?_, ?_⟩, ?_⟩
  · intro q f' hq hf' j
    by_cases hqp : q = p
    · subst hqp
      rw [update_self] at hf'
      cases hf'
      rw [update_self, hentries, hold (S.child_ne (Nat.le_refl _))]
    · rw [hold hqp] at hf'
      rw [hmem hf', h.link hq hf', hold]
      intro hc
      rw [hown q j hc] at hf'
      cases hf'
  · intro p' i' j' hn
    have hne : S.child (S.child p' i') j' ≠ p := by
      intro hc
      have h1 := S.depth_child (S.child p' i') j'
      have h2 := S.depth_child p' i'
      rw [hc] at h1
      omega
    have hpc : S.child p' i' ≠ p := by
      intro hc
      rw [hc, update_self] at hn
      cases hn
    rw [hold hpc] at hn
    rw [hold hne, h.up p' i' j' hn]
  · intro q j hq
    have hqp : q ≠ p := by
      rintro rfl
      omega
    unfold Scheme.leaf
    rw [hold hqp]
    cases hfr : frame q with
    | none => rfl
    | some f' =>
      show update mem g entries f' j = mem f' j
      rw [hmem hfr]

end Update

end Layout

/-! ## All tables below a table -/

/-- The table `f` and those that it leads to in at most `n` steps, lower tables first. -/
def Scheme.collect (S : Scheme F ι E P) (mem : F → ι → E) (indices : List ι) : ℕ → F → List F
  | 0, f => [f]
  | n + 1, f =>
    indices.flatMap (fun i => (S.next (mem f i)).elim [] (S.collect mem indices n)) ++ [f]

theorem mem_collect {indices : List ι} (hall : ∀ i, i ∈ indices) {n : ℕ} {f g : F} :
    g ∈ S.collect mem indices n f ↔ ∃ is, is.length ≤ n ∧ S.follow mem f is = some g := by
  induction n generalizing f with
  | zero =>
    show g ∈ [f] ↔ _
    rw [mem_singleton]
    constructor
    · rintro rfl
      exact ⟨[], Nat.le_refl 0, rfl⟩
    · rintro ⟨is, hlen, hf⟩
      obtain rfl := eq_nil_of_length_eq_zero (Nat.le_zero.mp hlen)
      exact (Option.some.inj hf).symm
  | succ n ih =>
    show g ∈ indices.flatMap _ ++ [f] ↔ _
    rw [mem_append, mem_singleton, mem_flatMap]
    constructor
    · rintro (⟨i, -, hi⟩ | rfl)
      · cases hn : S.next (mem f i) with
        | none =>
          rw [hn] at hi
          cases hi
        | some f' =>
          rw [hn] at hi
          obtain ⟨is, hlen, hf⟩ := ih.mp hi
          refine ⟨i :: is, Nat.succ_le_succ hlen, ?_⟩
          show (S.next (mem f i)).bind _ = _
          rw [hn]
          exact hf
      · exact ⟨[], Nat.zero_le _, rfl⟩
    · rintro ⟨is, hlen, hf⟩
      cases is with
      | nil => exact Or.inr (Option.some.inj hf).symm
      | cons i is =>
        have hbind : (S.next (mem f i)).bind (fun f' => S.follow mem f' is) = some g := hf
        obtain ⟨f', hn, hf'⟩ := Option.bind_eq_some_iff.mp hbind
        refine Or.inl ⟨i, hall i, ?_⟩
        rw [hn]
        exact ih.mpr ⟨is, Nat.le_of_succ_le_succ hlen, hf'⟩

theorem Layout.nodup_collect (h : Layout S mem frame) {indices : List ι} (hall : ∀ i, i ∈ indices)
    (hnd : indices.Nodup) {n : ℕ} {p : P} {f : F} (hp : frame p = some f)
    (hd : S.depth p + n ≤ S.levels)
    (hpath : ∀ is js, S.below p is = S.below p js → is = js) :
    (S.collect mem indices n f).Nodup := by
  induction n generalizing p f with
  | zero => exact nodup_singleton f
  | succ n ih =>
    have hbelow : ∀ {i g}, g ∈ (S.next (mem f i)).elim [] (S.collect mem indices n) →
        ∃ is, frame (S.below p (i :: is)) = some g := by
      intro i g hg
      rw [h.link (by omega) hp i] at hg
      cases hc : frame (S.child p i) with
      | none =>
        rw [hc] at hg
        cases hg
      | some f' =>
        rw [hc] at hg
        obtain ⟨is, hlen, hf⟩ := (mem_collect hall).mp hg
        have hdepth := S.depth_child p i
        rw [h.follow_eq hc (by omega)] at hf
        exact ⟨is, hf⟩
    refine nodup_append.mpr ⟨nodup_flatMap.mpr ⟨fun i _ => ?_, ?_⟩, nodup_singleton f, ?_⟩
    · cases hn : S.next (mem f i) with
      | none => exact nodup_nil
      | some f' =>
        have hc := h.link (by omega) hp i
        rw [hn] at hc
        have hdepth := S.depth_child p i
        exact ih hc.symm (by omega) fun is js he => (List.cons.inj (hpath (i :: is) (i :: js) he)).2
    · refine hnd.imp fun {i j} hij g hgi hgj => ?_
      obtain ⟨is, hi⟩ := hbelow hgi
      obtain ⟨js, hj⟩ := hbelow hgj
      exact hij (List.cons.inj (hpath _ _ (h.inj hi hj))).1
    · intro g hg f' hf' hgf
      rw [mem_singleton] at hf'
      subst hf' hgf
      obtain ⟨i, -, hi⟩ := mem_flatMap.mp hg
      obtain ⟨is, hi⟩ := hbelow hi
      cases hpath _ [] (h.inj hi hp)

end Radix
