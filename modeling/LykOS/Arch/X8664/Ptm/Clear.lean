import LykOS.Arch.X8664.Ptm.Runs

/-!
# Tearing down a map

`arch_ptm_clear_map` goes through all 512 entries of the PML4, so it also frees the tables of the
higher half. It frees what the map owns, its PML4 and its lower-half tables, exactly when no entry of
the higher half is present (`ptm_clear_owned_iff`). After `arch_ptm_init` all of them are, in every
map, and the freed tables are those that all other maps use.
-/

namespace LykOS.X8664

open Radix Run List
open PageTables (Op)

/-- The table that a path of entries leads to. -/
def tableAt (s : Ptm) (table : ℕ) : List (Fin 512) → Option ℕ
  | [] => some table
  | i :: path => (nextTable (s.tables table i)).bind fun t => tableAt s t path

/-- A table that a walk from a PML4 can reach. -/
def Reachable (s : Ptm) (pml4 f : ℕ) : Prop :=
  ∃ path, path.length ≤ 3 ∧ tableAt s pml4 path = some f

/-- A table that a map owns: its PML4, and what is reachable from the lower half of it. -/
def Owned (s : Ptm) (pml4 f : ℕ) : Prop :=
  ∃ path, path.length ≤ 3 ∧ (∀ i ∈ path.head?, i.val < 256) ∧ tableAt s pml4 path = some f

/-- Clearing map `m` frees the tables that it owns, each once, and none of another map, so that the
translations of all other maps stay. -/
structure ClearsOwn (F : FrameSupply) (w : World) (m : ℕ) : Prop where
  nodup : (archPtmClearMap w.ptm m).Nodup
  owned : ∀ f, f ∈ archPtmClearMap w.ptm m ↔ Owned w.ptm m f
  others : ∀ m' ∈ w.maps, m' ≠ m → ∀ f ∈ archPtmClearMap w.ptm m, ¬ Reachable w.ptm m' f
  translations : ∀ s : Ptm, (∀ f, f ∉ archPtmClearMap w.ptm m → s.tables f = w.ptm.tables f) →
    ∀ m' ∈ w.maps, m' ≠ m → ∀ virt,
      archPtmVirtToPhys F.frames s m' virt = archPtmVirtToPhys F.frames w.ptm m' virt

/-! ## Paths -/

theorem follow_eq_tableAt (shared : Bool) (s : Ptm) (table : ℕ) (path : List (Fin 512)) :
    (scheme shared).follow s.tables table path = tableAt s table path := by
  induction path generalizing table with
  | nil => rfl
  | cons i path ih =>
    show (nextTable (s.tables table i)).bind _ = (nextTable (s.tables table i)).bind _
    exact congrArg _ (funext ih)

theorem descend_eq_tableAt (frames : ℕ → ℕ) (s : Ptm) (table : ℕ) (path : List (Fin 512)) :
    (descend frames false path s table).1 = tableAt s table path := by
  rw [descend_false frames false]
  exact follow_eq_tableAt ..

theorem tableAt_congr {s s' : Ptm} {path : List (Fin 512)} : ∀ {table : ℕ},
    (∀ path' f, path'.length < path.length → tableAt s table path' = some f →
      s'.tables f = s.tables f) → tableAt s' table path = tableAt s table path := by
  induction path with
  | nil => exact fun _ => rfl
  | cons i path ih =>
    intro table h
    show (nextTable (s'.tables table i)).bind _ = (nextTable (s.tables table i)).bind _
    rw [h [] table (Nat.succ_pos _) rfl]
    cases hn : nextTable (s.tables table i) with
    | none => rfl
    | some t =>
      refine ih fun path' f hlen hf => h (i :: path') f (Nat.succ_lt_succ hlen) ?_
      show (nextTable (s.tables table i)).bind _ = some f
      rw [hn]
      exact hf

theorem archPtmVirtToPhys_congr (frames : ℕ → ℕ) {s s' : Ptm} {m : ℕ}
    (h : ∀ f, Reachable s m f → s'.tables f = s.tables f) (virt : ℕ) :
    archPtmVirtToPhys frames s' m virt = archPtmVirtToPhys frames s m virt := by
  have hwalk : tableAt s' m (tablePath virt) = tableAt s m (tablePath virt) :=
    tableAt_congr fun path' f hlen hf => h f ⟨path', Nat.le_of_lt hlen, hf⟩
  unfold archPtmVirtToPhys
  rw [descend_eq_tableAt, descend_eq_tableAt, hwalk]
  cases hf : tableAt s m (tablePath virt) with
  | none => rfl
  | some f =>
    dsimp only
    rw [h f ⟨tablePath virt, Nat.le_refl 3, hf⟩]

/-! ## The freed tables -/

section

variable {F : FrameSupply} {shared : Bool} {s : Ptm} {maps : List ℕ} {frame : Place → Option ℕ}

variable {f j m : ℕ} {path : List (Fin 512)}

theorem deleteLevel_eq (h : Inv F shared s maps frame) {n : ℕ} {p : Place} (hp : frame p = some f)
    (hd : p.2.length + n ≤ 3) :
    deleteLevel s n f = (scheme shared).collect s.tables (List.finRange 512) n f := by
  induction n generalizing p f with
  | zero => rfl
  | succ n ih =>
    have hentry : ∀ i ∈ List.finRange 512,
        (if s.tables f i &&& present = 0 ∨ s.tables f i &&& huge ≠ 0 then []
          else deleteLevel s n (pteGetAddr (s.tables f i))) =
        ((scheme shared).next (s.tables f i)).elim []
          ((scheme shared).collect s.tables (List.finRange 512) n) := by
      intro i _
      have hlink : nextTable (s.tables f i) = frame (childPlace shared p i) :=
        h.layout.link (show p.2.length < 3 by omega) hp i
      show _ = (nextTable (s.tables f i)).elim [] _
      by_cases hpres : s.tables f i &&& present = 0
      · rw [if_pos (Or.inl hpres), nextTable_eq_none.mpr hpres]
        rfl
      · have hhuge := h.huge hp (by omega) i
        have hnext : nextTable (s.tables f i) = some (pteGetAddr (s.tables f i)) := if_pos hpres
        rw [if_neg (by rw [hhuge]; simpa using hpres), hnext]
        rw [hnext] at hlink
        refine ih hlink.symm ?_
        rw [childPlace_snd, length_cons]
        omega
    unfold deleteLevel Scheme.collect
    rw [flatMap_congr hentry]

theorem Inv.mem_clear (h : Inv F shared s maps frame) (hj : maps[j]? = some m) (f : ℕ) :
    f ∈ archPtmClearMap s m ↔ Reachable s m f := by
  unfold archPtmClearMap Reachable
  rw [deleteLevel_eq h (h.root_eq hj) (Nat.le_refl 3), mem_collect mem_finRange]
  simp only [follow_eq_tableAt]

theorem Inv.nodup_clear (h : Inv F shared s maps frame) (hj : maps[j]? = some m) :
    (archPtmClearMap s m).Nodup := by
  unfold archPtmClearMap
  rw [deleteLevel_eq h (h.root_eq hj) (Nat.le_refl 3)]
  refine h.layout.nodup_collect mem_finRange (nodup_finRange 512) (h.root_eq hj)
    (Nat.le_refl 3) fun is js he => ?_
  have hsnd := congrArg Prod.snd he
  rw [below_snd, below_snd, List.append_nil, List.append_nil, reverse_inj] at hsnd
  exact hsnd

theorem Inv.frame_below (h : Inv F shared s maps frame) (hj : maps[j]? = some m)
    (hlen : path.length ≤ 3) :
    tableAt s m path = frame ((scheme shared).below (some j, []) path) := by
  rw [← follow_eq_tableAt shared]
  exact h.layout.follow_eq (h.root_eq hj) (by simpa [scheme] using hlen)

theorem below_fst_of_lower (hlow : ∀ i ∈ path.head?, i.val < 256) :
    ((scheme shared).below (some j, []) path).1 = some j := by
  cases path with
  | nil => rfl
  | cons i path =>
    have hi : i.val < 256 := hlow i rfl
    show ((scheme shared).below (childPlace shared (some j, []) i) path).1 = _
    rw [below_fst (by rw [childPlace_snd]; exact cons_ne_nil _ _)]
    unfold childPlace
    rw [if_neg (by omega)]

/-- The entries of the higher half of the PML4 are not present. -/
def HigherHalfEmpty (s : Ptm) (pml4 : ℕ) : Prop :=
  ∀ i : Fin 512, 256 ≤ i.val → s.tables pml4 i &&& present = 0

instance (s : Ptm) (pml4 : ℕ) : Decidable (HigherHalfEmpty s pml4) :=
  inferInstanceAs (Decidable (∀ _, _))

theorem HigherHalfEmpty.lower (h : HigherHalfEmpty s m) (hf : tableAt s m path = some f) :
    ∀ i ∈ path.head?, i.val < 256 := by
  cases path with
  | nil => exact fun i hi => by cases hi
  | cons i path =>
    rintro _ ⟨⟩
    by_contra hi
    have hbind : (nextTable (s.tables m i)).bind (fun t => tableAt s t path) = some f := hf
    rw [nextTable_eq_none.mpr (h i (by omega))] at hbind
    cases hbind

theorem Inv.clear_others (h : Inv F shared s maps frame) (hj : maps[j]? = some m)
    (hempty : HigherHalfEmpty s m) {j' m' : ℕ} (hj' : maps[j']? = some m') (hne : m' ≠ m)
    (hf : Reachable s m f) : ¬ Reachable s m' f := by
  rintro ⟨path', hlen', hf'⟩
  obtain ⟨path, hlen, hf⟩ := hf
  have hlow := hempty.lower hf
  rw [h.frame_below hj hlen] at hf
  rw [h.frame_below hj' hlen'] at hf'
  have hplace := h.layout.inj hf hf'
  have hsnd := congrArg Prod.snd hplace
  rw [below_snd, below_snd, List.append_nil, List.append_nil, reverse_inj] at hsnd
  subst hsnd
  have hfst := congrArg Prod.fst hplace
  rw [below_fst_of_lower hlow, below_fst_of_lower hlow] at hfst
  cases hfst
  exact hne (Option.some.inj (hj'.symm.trans hj))

theorem Inv.clear_higher (h : Inv F shared s maps frame) (hj : maps[j]? = some m) {i : Fin 512}
    (hi : 256 ≤ i.val) (hpres : s.tables m i &&& present ≠ 0) :
    ∃ f, tableAt s m [i] = some f ∧ f ∈ archPtmClearMap s m ∧ ¬ Owned s m f := by
  have hf : tableAt s m [i] = some (pteGetAddr (s.tables m i)) := by
    show (nextTable (s.tables m i)).bind _ = _
    rw [show nextTable (s.tables m i) = some _ from if_pos hpres]
    rfl
  refine ⟨_, hf, (h.mem_clear hj _).mpr ⟨[i], by simp, hf⟩, ?_⟩
  rintro ⟨path, hlen, hlow, hf'⟩
  rw [h.frame_below hj (by simp)] at hf
  rw [h.frame_below hj hlen] at hf'
  have hsnd := congrArg Prod.snd (h.layout.inj hf hf')
  rw [below_snd, below_snd, List.append_nil, List.append_nil, reverse_inj] at hsnd
  have := hlow i (by rw [← hsnd]; rfl)
  omega

end

/-- Clearing a map frees exactly what it owns if and only if its higher half is empty. -/
theorem ptm_clear_owned_iff {F : FrameSupply} {memory : ℕ → Fin 512 → ℕ} {init : Bool}
    {w₀ w : World} (h₀ : start F memory init = some w₀) {ops : List Op}
    (hrun : run (step F init) w₀ ops = some w) {m : ℕ} (hm : m ∈ w.maps) :
    ClearsOwn F w m ↔ HigherHalfEmpty w.ptm m := by
  obtain ⟨frame, h⟩ := run_inv h₀ hrun
  obtain ⟨j, hj⟩ := mem_iff_getElem?.mp hm
  constructor
  · intro hclear i hi
    by_contra hpres
    obtain ⟨f, -, hmem, hnot⟩ := h.inv.clear_higher hj hi hpres
    exact hnot ((hclear.owned f).mp hmem)
  · intro hempty
    have hothers : ∀ m' ∈ w.maps, m' ≠ m → ∀ f ∈ archPtmClearMap w.ptm m,
        ¬ Reachable w.ptm m' f := by
      intro m' hm' hne f hf
      obtain ⟨j', hj'⟩ := mem_iff_getElem?.mp hm'
      exact h.inv.clear_others hj hempty hj' hne ((h.inv.mem_clear hj f).mp hf)
    refine ⟨h.inv.nodup_clear hj, fun f => ?_, hothers, fun s hs m' hm' hne virt => ?_⟩
    · rw [h.inv.mem_clear hj f]
      constructor
      · rintro ⟨path, hlen, hf⟩
        exact ⟨path, hlen, hempty.lower hf, hf⟩
      · rintro ⟨path, hlen, -, hf⟩
        exact ⟨path, hlen, hf⟩
    · refine archPtmVirtToPhys_congr F.frames (fun f hf => hs f fun hmem => ?_) virt
      exact hothers m' hm' hne f hmem hf

/-- Without `arch_ptm_init`, one map with a lower-half page next to another. -/
theorem ptm_clear_owned_iff_lower :
    ∃ w₀ w, start sampleSupply (fun _ _ => 0) false = some w₀ ∧
      run (step sampleSupply false) w₀ [.newMap, .map 0 0x400000 0x7000000, .newMap] = some w ∧
        4096 ∈ w.maps ∧ ClearsOwn sampleSupply w 4096 := by
  obtain ⟨w₀, h₀, w, hrun, hm, hempty⟩ : ∃ w₀ ∈ start sampleSupply (fun _ _ => 0) false,
      ∃ w ∈ run (step sampleSupply false) w₀ [.newMap, .map 0 0x400000 0x7000000, .newMap],
        4096 ∈ w.maps ∧ HigherHalfEmpty w.ptm 4096 := by decide +kernel
  exact ⟨w₀, w, h₀, hrun, hm, (ptm_clear_owned_iff h₀ hrun hm).mpr hempty⟩

/-- After `arch_ptm_init` and any run, clearing any map frees all 256 top tables of the higher half,
which are those of every other map. -/
theorem clear_frees_shared {F : FrameSupply} {memory : ℕ → Fin 512 → ℕ} {w₀ w : World}
    (h₀ : start F memory true = some w₀) {ops : List Op} (hrun : run (step F true) w₀ ops = some w)
    {m m' : ℕ} (hm : m ∈ w.maps) (hm' : m' ∈ w.maps) {i : Fin 512} (hi : 256 ≤ i.val) :
    ∃ f ∈ archPtmClearMap w.ptm m, ¬ Owned w.ptm m f ∧ tableAt w.ptm m' [i] = some f := by
  obtain ⟨frame, h⟩ := run_inv h₀ hrun
  obtain ⟨j, hj⟩ := mem_iff_getElem?.mp hm
  obtain ⟨j', hj'⟩ := mem_iff_getElem?.mp hm'
  have hpres : w.ptm.tables m i &&& present ≠ 0 := by
    intro hz
    refine h.inv.child_ne_none (p := (some j, [])) ⟨rfl, rfl, hi⟩ ?_
    have hlink : nextTable (w.ptm.tables m i) = frame (childPlace true (some j, []) i) :=
      h.inv.layout.link (p := (some j, [])) (Nat.zero_lt_succ 2) (h.inv.root_eq hj) i
    rw [← hlink, nextTable_eq_none.mpr hz]
  obtain ⟨f, hf, hmem, hnot⟩ := h.inv.clear_higher hj hi hpres
  refine ⟨f, hmem, hnot, ?_⟩
  rw [h.inv.frame_below hj (by simp)] at hf
  rw [h.inv.frame_below hj' (by simp), ← hf]
  show frame (childPlace true (some j', []) i) = frame (childPlace true (some j, []) i)
  unfold childPlace
  rw [if_pos ⟨rfl, rfl, hi⟩, if_pos ⟨rfl, rfl, hi⟩]

/-- After `arch_ptm_init`, clearing the first of two new maps frees a table of the second one. -/
theorem ptm_clear_frees_other :
    ∃ w₀ w, start sampleSupply (fun _ _ => 0) true = some w₀ ∧
      run (step sampleSupply true) w₀ [.newMap, .newMap] = some w ∧ w.maps = [1052672, 1056768] ∧
        (∃ f ∈ archPtmClearMap w.ptm 1052672, Reachable w.ptm 1056768 f) ∧
        ¬ ClearsOwn sampleSupply w 1052672 := by
  obtain ⟨w₀, h₀, w, hrun, hmaps⟩ : ∃ w₀ ∈ start sampleSupply (fun _ _ => 0) true,
      ∃ w ∈ run (step sampleSupply true) w₀ [.newMap, .newMap], w.maps = [1052672, 1056768] := by
    decide +kernel
  have hm : 1052672 ∈ w.maps := by rw [hmaps]; simp
  have hm' : 1056768 ∈ w.maps := by rw [hmaps]; simp
  obtain ⟨f, hf, hnot, hat⟩ := clear_frees_shared h₀ hrun hm hm' (i := 256) (by decide)
  refine ⟨w₀, w, h₀, hrun, hmaps, ⟨f, hf, [256], by simp, hat⟩, fun hclear => ?_⟩
  exact hnot ((hclear.owned f).mp hf)

end LykOS.X8664
