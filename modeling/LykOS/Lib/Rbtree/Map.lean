import Mathlib.Data.List.AList
import Mathlib.Data.Option.Basic
import LykOS.Lib.Rbtree.Remove
import LykOS.Lib.Run

/-!
# The red-black tree as a finite map

A world is a tree in memory and the finite map it stands for. `step` performs an operation on both: on the
tree as the source does, on the map as the operation is meant. `rbtree_run_refines`: after every run from
the empty tree the memory holds a red-black search tree of the nodes of the map, and each operation returns
what the map says.
-/

namespace LykOS.Rbtree

open RedBlack RedBlack.Shape Run List

/-- The tree and the map from keys to nodes it stands for. -/
structure World where
  tree : Rbtree
  map : AList fun _ : ℕ => ℕ

def World.inserted (w : World) : List ℕ := w.map.entries.map Sigma.snd

variable {w : World} {T : Shape ℕ}

theorem World.mem_inserted {z : ℕ} : z ∈ w.inserted ↔ ∃ k, w.map.lookup k = some z := by
  unfold World.inserted
  rw [mem_map]
  constructor
  · rintro ⟨⟨k, _⟩, h, rfl⟩
    exact ⟨k, AList.mem_lookup_iff.mpr h⟩
  · rintro ⟨k, h⟩
    exact ⟨⟨k, z⟩, AList.mem_lookup_iff.mp h, rfl⟩

/-- What users of a tree do: write to a node outside the tree, insert such a node, and remove. -/
inductive Op
  | write (a : ℕ) (n : RbtreeNode)
  | insert (z : ℕ)
  | remove (key : ℕ)

/-- One operation; `n` bounds the rounds of each loop. -/
def step (n : ℕ) (w : World) : Op → Option World
  | .write a data => do
    guard (a ∉ w.inserted)
    return { w with tree := w.tree.modify a fun _ => data }
  | .insert z => do
    guard (z ∉ w.inserted)
    let (_, r) ← rbInsert n w.tree z
    let k := (w.tree.nodes z).key
    return ⟨r, if w.map.lookup k = none then w.map.insert k z else w.map⟩
  | .remove key => do
    let (_, r) ← rbRemove n w.tree key
    return ⟨r, w.map.erase key⟩

/-- Memory holds the red-black search tree `T`. -/
structure IsTree (r : Rbtree) (T : Shape ℕ) : Prop where
  rep : RepTree r T
  ordered : Ordered r T.items
  balanced : RB T

theorem IsTree.congr {r r' : Rbtree} (h : IsTree r T) (hroot : r'.root = r.root)
    (heq : ∀ b ∈ T.items, r'.nodes b = r.nodes b) : IsTree r' T := by
  refine ⟨⟨hroot.trans h.rep.root, h.rep.rep.congr heq, h.rep.nodup⟩, ?_, h.balanced⟩
  refine h.ordered.imp_of_mem fun hb hc hlt => ?_
  rw [heq _ hb, heq _ hc]
  exact hlt

/-- The map sends each key in the tree to its node, and no other. -/
def Represents (w : World) (T : Shape ℕ) : Prop :=
  ∀ k z, w.map.lookup k = some z ↔ z ∈ T.items ∧ (w.tree.nodes z).key = k

theorem Represents.mem_iff (h : Represents w T) {z : ℕ} : z ∈ w.inserted ↔ z ∈ T.items := by
  rw [World.mem_inserted]
  constructor
  · rintro ⟨k, hk⟩
    exact ((h k z).mp hk).1
  · exact fun hz => ⟨_, (h _ z).mpr ⟨hz, rfl⟩⟩

theorem Represents.lookup_eq_none (h : Represents w T) {k : ℕ} :
    w.map.lookup k = none ↔ ∀ a ∈ T.items, (w.tree.nodes a).key ≠ k := by
  rw [Option.eq_none_iff_forall_ne_some]
  constructor
  · exact fun hno a ha hk => hno a ((h k a).mpr ⟨ha, hk⟩)
  · intro hno a ha
    obtain ⟨hmem, hk⟩ := (h k a).mp ha
    exact hno a hmem hk

/-- The invariant of a run: a tree of at most `m` nodes. -/
def Inv (m : ℕ) (w : World) : Prop :=
  ∃ T, IsTree w.tree T ∧ Represents w T ∧ T.items.length ≤ m

/-! ## The operations -/

section

variable {n m : ℕ} {w : World}

theorem Inv.find (h : Inv m w) (hm : m < n) (k : ℕ) :
    rbFind n w.tree k = some (w.map.lookup k) := by
  obtain ⟨T, hT, hmap, hlen⟩ := h
  rcases rbFind_spec hT.rep hT.ordered (Nat.lt_of_le_of_lt hlen hm) k with ⟨a, ha, hk, heq⟩ | ⟨hno, heq⟩
  · rw [heq, (hmap k a).mpr ⟨ha, hk⟩]
  · rw [heq, hmap.lookup_eq_none.mpr hno]

theorem Inv.write (h : Inv m w) {a : ℕ} (ha : a ∉ w.inserted) (data : RbtreeNode) :
    Inv m { w with tree := w.tree.modify a fun _ => data } := by
  obtain ⟨T, hT, hmap, hlen⟩ := h
  rw [hmap.mem_iff] at ha
  have heq : ∀ b ∈ T.items, (w.tree.modify a fun _ => data).nodes b = w.tree.nodes b := fun b hb =>
    modify_of_ne _ _ (ne_of_mem_of_not_mem hb ha)
  refine ⟨T, hT.congr rfl heq, fun k z => ?_, hlen⟩
  rw [hmap k z, and_congr_right_iff]
  intro hz
  rw [heq z hz]

theorem Inv.insert (h : Inv m w) (hm : m < n) {z : ℕ} (hz : z ∉ w.inserted) :
    ∃ r', rbInsert n w.tree z = some (decide (w.map.lookup (w.tree.nodes z).key = none), r') ∧
      (w.map.lookup (w.tree.nodes z).key ≠ none → r' = w.tree) ∧
      Same (z :: w.inserted) w.tree r' ∧
      Inv (m + 1) ⟨r', if w.map.lookup (w.tree.nodes z).key = none
        then w.map.insert (w.tree.nodes z).key z else w.map⟩ := by
  obtain ⟨T, hT, hmap, hlen⟩ := h
  have hmem : ∀ b, b ∈ w.inserted ↔ b ∈ T.items := fun b => hmap.mem_iff
  rw [hmem] at hz
  rcases rbInsert_spec hT.rep hT.ordered hT.balanced hz (Nat.lt_of_le_of_lt hlen hm) with
    ⟨a, ha, hk, heq⟩ | ⟨hno, r', T', heq, hrep, hord, hrb, hperm, hsame⟩
  · -- the key is taken
    have hlook := (hmap _ a).mpr ⟨ha, hk⟩
    rw [hlook]
    exact ⟨w.tree, heq, fun _ => rfl, Same.refl _ _, T, hT, hmap, Nat.le_succ_of_le hlen⟩
  · have hlook := hmap.lookup_eq_none.mpr hno
    rw [if_pos hlook, decide_eq_true hlook]
    refine ⟨r', heq, fun hne => absurd hlook hne, hsame.mono fun b hb => ?_, T', ⟨hrep, hord, hrb⟩, ?_, ?_⟩
    · rw [mem_cons, hmem]
      exact mem_cons.mp hb
    · intro k b
      show (w.map.insert (w.tree.nodes z).key z).lookup k = some b ↔ _
      rw [hperm.mem_iff, mem_cons, (hsame b).1]
      by_cases hk : k = (w.tree.nodes z).key
      · subst hk
        rw [AList.lookup_insert, Option.some.injEq]
        constructor
        · rintro rfl
          exact ⟨Or.inl rfl, rfl⟩
        · rintro ⟨rfl | hb, hk⟩
          · rfl
          · exact absurd hk (hno b hb)
      · rw [AList.lookup_insert_ne hk, hmap k b]
        constructor
        · exact fun ⟨hb, hbk⟩ => ⟨Or.inr hb, hbk⟩
        · rintro ⟨rfl | hb, hbk⟩
          · exact absurd hbk.symm hk
          · exact ⟨hb, hbk⟩
    · rw [hperm.length_eq, length_cons]
      exact Nat.succ_le_succ hlen

theorem Inv.remove (h : Inv m w) (hm : m < n) (k : ℕ) :
    ∃ r', rbRemove n w.tree k = some (w.map.lookup k, r') ∧
      (w.map.lookup k = none → r' = w.tree) ∧
      (∀ z, w.map.lookup k = some z → r'.nodes z = clearNode (w.tree.nodes z)) ∧
      Same w.inserted w.tree r' ∧ Inv m ⟨r', w.map.erase k⟩ := by
  obtain ⟨T, hT, hmap, hlen⟩ := h
  have hmem : ∀ b, b ∈ w.inserted ↔ b ∈ T.items := fun b => hmap.mem_iff
  rcases rbRemove_spec hT.rep hT.ordered hT.balanced (Nat.lt_of_le_of_lt hlen hm) k with
    ⟨z, hz, hk, r', T', heq, hrep, hord, hrb, hperm, hsame, hclear⟩ | ⟨hno, heq⟩
  · have hlook := (hmap k z).mpr ⟨hz, hk⟩
    rw [hlook]
    refine ⟨r', heq, (fun hc => by cases hc), ?_, hsame.mono fun b hb => (hmem b).mpr hb, T',
      ⟨hrep, hord, hrb⟩, ?_, ?_⟩
    · rintro _ ⟨⟩
      exact hclear
    · have hnd := nodup_cons.mp (hperm.nodup_iff.mp hT.rep.nodup)
      intro k' b
      show (w.map.erase k).lookup k' = some b ↔ _
      rw [(hsame b).1]
      by_cases hk' : k' = k
      · subst hk'
        rw [AList.lookup_erase]
        refine ⟨(fun hc => by cases hc), fun ⟨hb, hbk⟩ => ?_⟩
        -- another node with the same key would be the same node
        have hbz := (hmap k' b).mpr ⟨hperm.mem_iff.mpr (mem_cons_of_mem _ hb), hbk⟩
        rw [hlook, Option.some.injEq] at hbz
        exact absurd (hbz ▸ hb) hnd.1
      · rw [AList.lookup_erase_ne hk', hmap k' b, hperm.mem_iff, mem_cons]
        constructor
        · rintro ⟨rfl | hb, hbk⟩
          · exact absurd (hbk.symm.trans hk) hk'
          · exact ⟨hb, hbk⟩
        · exact fun ⟨hb, hbk⟩ => ⟨Or.inr hb, hbk⟩
    · have hlen' := hperm.length_eq
      rw [length_cons] at hlen'
      omega
  · have hlook := hmap.lookup_eq_none.mpr hno
    rw [hlook]
    refine ⟨w.tree, heq, fun _ => rfl, (fun z hc => by cases hc), Same.refl _ _, T, hT, ?_, hlen⟩
    intro k' b
    show (w.map.erase k).lookup k' = some b ↔ _
    by_cases hk' : k' = k
    · subst hk'
      rw [AList.lookup_erase, ← hmap k' b, hlook]
    · rw [AList.lookup_erase_ne hk', hmap k' b]

end

/-! ## Runs -/

theorem step_inv {n m : ℕ} {w w' : World} {op : Op} (hm : m < n) (h : Inv m w)
    (hs : step n w op = some w') : Inv (m + 1) w' := by
  cases op with
  | write a data =>
    simp only [step, Option.bind_eq_bind, Option.bind_eq_some_iff, Option.pure_def] at hs
    obtain ⟨_, hg, hw⟩ := hs
    cases hw
    obtain ⟨T, hT, hmap, hlen⟩ := h.write ((Option.guard_eq_some' _).mp hg) data
    exact ⟨T, hT, hmap, Nat.le_succ_of_le hlen⟩
  | insert z =>
    simp only [step, Option.bind_eq_bind, Option.bind_eq_some_iff, Option.pure_def] at hs
    obtain ⟨_, hg, ⟨b, r⟩, hr, hw⟩ := hs
    cases hw
    obtain ⟨r', heq, -, -, hinv⟩ := h.insert hm ((Option.guard_eq_some' _).mp hg)
    cases heq.symm.trans hr
    exact hinv
  | remove key =>
    simp only [step, Option.bind_eq_bind, Option.bind_eq_some_iff, Option.pure_def] at hs
    obtain ⟨⟨b, r⟩, hr, hw⟩ := hs
    cases hw
    obtain ⟨r', heq, -, -, -, T, hT, hmap, hlen⟩ := h.remove hm key
    cases heq.symm.trans hr
    exact ⟨T, hT, hmap, Nat.le_succ_of_le hlen⟩

/-- The tree does what the map says: its shape, and the result and the effect of each operation. -/
structure Refines (n : ℕ) (w : World) : Prop where
  tree : ∃ T, IsTree w.tree T ∧ Represents w T
  find : ∀ k, rbFind n w.tree k = some (w.map.lookup k)
  insert : ∀ z ∉ w.inserted, ∃ r',
    rbInsert n w.tree z = some (decide (w.map.lookup (w.tree.nodes z).key = none), r') ∧
      (w.map.lookup (w.tree.nodes z).key ≠ none → r' = w.tree) ∧ Same (z :: w.inserted) w.tree r'
  remove : ∀ k, ∃ r', rbRemove n w.tree k = some (w.map.lookup k, r') ∧
    (w.map.lookup k = none → r' = w.tree) ∧
    (∀ z, w.map.lookup k = some z → r'.nodes z = clearNode (w.tree.nodes z)) ∧
    Same w.inserted w.tree r'

def start (nodes : ℕ → RbtreeNode) : World := ⟨⟨nodes, none⟩, ∅⟩

theorem start_inv (nodes : ℕ → RbtreeNode) : Inv 0 (start nodes) := by
  refine ⟨.nil, ⟨⟨rfl, trivial, nodup_nil⟩, List.Pairwise.nil, rfl, 0, .nil⟩, ?_, Nat.le_refl 0⟩
  intro k z
  show (∅ : AList fun _ : ℕ => ℕ).lookup k = some z ↔ _
  rw [AList.lookup_empty]
  exact ⟨(fun hc => by cases hc), (fun hc => by cases hc.1)⟩

/-- After every run from the empty tree, the tree refines the map. The number of rounds only has to
exceed the number of operations. -/
theorem rbtree_run_refines (nodes : ℕ → RbtreeNode) {n : ℕ} {ops : List Op} (hn : ops.length < n)
    {w : World} (hrun : run (step n) (start nodes) ops = some w) : Refines n w := by
  have hinv : Inv (0 + ops.length) w :=
    run_induction_count (fun m s o s' hm hs h => step_inv hm hs h) (by omega) (start_inv nodes) hrun
  have hm : 0 + ops.length < n := by omega
  refine ⟨?_, hinv.find hm, fun z hz => ?_, fun k => ?_⟩
  · obtain ⟨T, hT, hmap, -⟩ := hinv
    exact ⟨T, hT, hmap⟩
  · obtain ⟨r', h1, h2, h3, -⟩ := hinv.insert hm hz
    exact ⟨r', h1, h2, h3⟩
  · obtain ⟨r', h1, h2, h3, h4, -⟩ := hinv.remove hm k
    exact ⟨r', h1, h2, h3, h4⟩

/-- A node with a key, as a user prepares it for insertion. -/
def withKey (key : ℕ) : RbtreeNode := ⟨key, 0, none, none, none, false⟩

/-- Seven nodes go in. A node with two children goes out, does not go in again under a key that is
taken, and a leaf goes out. -/
def sampleOps : List Op :=
  (List.range 7).map (fun i => .write i (withKey (i * 10))) ++
    (List.range 7).map .insert ++
    [.remove 10, .write 1 (withKey 20), .insert 1, .remove 0]

theorem rbtree_run_refines_sample : ∃ w, run (step 19) (start fun _ => withKey 0) sampleOps = some w ∧
    Refines 19 w ∧ w.inserted.length = 5 := by
  obtain ⟨w, hw, hlen⟩ : ∃ w ∈ run (step 19) (start fun _ => withKey 0) sampleOps,
      w.inserted.length = 5 := by decide +kernel
  exact ⟨w, hw, rbtree_run_refines _ (by decide) hw, hlen⟩

end LykOS.Rbtree
