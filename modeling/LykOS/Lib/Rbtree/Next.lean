import LykOS.Lib.Rbtree.Map

/-!
# The nodes in the order of their keys

`rb_first` and `rb_next` go through the nodes of the tree in the order of its items (`rbFirst_spec`,
`rbNext_spec`), and `rb_remove` of the first node leaves the others, each at its address and in the same
order (`rbRemove_head`).
-/

namespace LykOS.Rbtree

open RedBlack RedBlack.Shape
open List hiding after

section

variable {r : Rbtree} {T : Shape ℕ} {n : ℕ}

theorem rbFirst_spec (h : RepTree r T) (hn : T.items.length < n) : rbFirst n r = some T.items.head? := by
  unfold rbFirst
  rw [h.root]
  by_cases hT : T = .nil
  · subst hT
    obtain ⟨m, rfl⟩ : ∃ m, n = m + 1 := ⟨n - 1, by omega⟩
    rfl
  · obtain ⟨ctx, c, y, X, -, hitems, hmin⟩ := treeMin_spec hn hT h.rep
    rw [hmin, hitems]
    rfl

theorem nextLoop_spec : ∀ (ctx : List (Frame ℕ)) (t : Shape ℕ) (a n : ℕ), RepTree r (plug ctx t) →
    t.root = some a → ctx.length < n → nextLoop r n a (above ctx) = some (after ctx).head? := by
  intro ctx
  induction ctx with
  | nil =>
    intro t a n _ _ hn
    obtain ⟨n, rfl⟩ : ∃ m, n = m + 1 := ⟨n - 1, by rw [length_nil] at hn; omega⟩
    rfl
  | cons f ctx ih =>
    intro t a n h hroot hn
    rw [length_cons] at hn
    obtain ⟨n, rfl⟩ : ∃ m, n = m + 1 := ⟨n - 1, by omega⟩
    obtain ⟨-, ⟨hcell, -, -⟩, -, hnodup⟩ := h.split
    obtain ⟨d, c, p, s⟩ := f
    show (if (r.nodes p).right = some a then nextLoop r n p (r.nodes p).parent else some (some p)) = _
    cases d with
    | left =>
      have hright : (r.nodes p).right = s.root := hcell.far
      -- the subtree is on the left, so its root is not in the sibling
      have hne : s.root ≠ some a := by
        intro hs
        have hdisj := (nodup_append.mp hnodup).2.2
        refine hdisj a (mem_items_of_root hroot) a ?_ rfl
        exact mem_cons_of_mem _ (mem_append_left _ (mem_items_of_root hs))
      rw [hright, if_neg hne]
      rfl
    | right =>
      have hright : (r.nodes p).right = t.root := hcell.near
      rw [hright, if_pos hroot, hcell.parent]
      refine ih (Frame.fill ⟨.right, c, p, s⟩ t) p n h ?_ (by omega)
      unfold Frame.fill
      rw [root_branch]

theorem rbNext_spec (h : RepTree r T) (hn : T.items.length < n) {a : ℕ} {front rest : List ℕ}
    (hitems : T.items = front ++ a :: rest) : rbNext n r a = some rest.head? := by
  have ha : a ∈ T.items := hitems ▸ mem_append_right _ mem_cons_self
  obtain ⟨ctx, c, L, R, rfl⟩ := exists_plug_of_mem ha
  have hnodup := h.nodup
  rw [items_plug] at hitems hnodup hn
  have happ : before ctx ++ ((Shape.node c L a R).items ++ after ctx) =
      (before ctx ++ L.items) ++ a :: (R.items ++ after ctx) := by
    simp only [items, append_assoc, cons_append]
  rw [happ] at hitems hnodup hn
  obtain ⟨-, -, rfl⟩ : before ctx ++ L.items = front ∧ a = a ∧ R.items ++ after ctx = rest := by
    obtain ⟨-, hright, hdisj⟩ := nodup_append.mp hnodup
    refine (append_cons_inj_of_notMem ?_ ?_).mp hitems
    · exact fun hmem => hdisj a hmem a mem_cons_self rfl
    · exact (nodup_cons.mp hright).1
  have hcell := RepTree.cell (d := .left) h
  have hright : (r.nodes a).right = R.root := hcell.far
  have hlen : R.items.length < n ∧ ctx.length < n := by
    have hctx := length_le_ctxItems ctx
    have hperm := (items_plug_perm ctx (.node c L a R)).length_eq
    rw [items_plug, happ] at hperm
    simp only [items, length_append, length_cons] at hn hperm
    omega
  unfold rbNext
  rw [hright]
  by_cases hR : R = .nil
  · subst hR
    rw [if_neg fun hne : (Shape.nil : Shape ℕ).root ≠ none => hne rfl, hcell.parent]
    exact nextLoop_spec ctx (.node c L a .nil) a n h rfl hlen.2
  · rw [if_pos fun hroot => hR (root_eq_none hroot)]
    obtain ⟨-, -, hrep, -⟩ := RepTree.split h
    obtain ⟨ctx', c', y, X, -, hitems', hmin⟩ := treeMin_spec hlen.1 hR hrep.2.2
    rw [hmin, hitems']
    rfl

theorem rbRemove_head (h : IsTree r T) (hn : T.items.length < n) {z : ℕ} {rest : List ℕ}
    (hitems : T.items = z :: rest) :
    ∃ r' T', rbRemove n r (r.nodes z).key = some (some z, r') ∧ IsTree r' T' ∧ T'.items = rest ∧
      Same T.items r r' := by
  have hz : z ∈ T.items := hitems ▸ mem_cons_self
  rcases rbRemove_spec h.rep h.ordered h.balanced hn (r.nodes z).key with
    ⟨y, hy, hkey, r', T', heq, hrep, hord, hrb, hperm, hsame, -⟩ | ⟨hno, -⟩
  · obtain rfl : y = z := by
      rw [hitems] at hy
      rcases mem_cons.mp hy with hyz | hy
      · exact hyz
      · have hlt := rel_of_pairwise_cons (hitems ▸ h.ordered) hy
        omega
    rw [hitems] at hperm
    have hrest : Ordered r T'.items := hord.imp fun {a b} hab => by
      rw [(hsame a).1, (hsame b).1] at hab
      exact hab
    have hcons : Ordered r rest := (pairwise_cons.mp (hitems ▸ h.ordered)).2
    refine ⟨r', T', heq, ⟨hrep, hord, hrb⟩, ?_, hsame⟩
    -- both lists are in the order of the keys
    refine ((perm_cons y).mp hperm).symm.eq_of_pairwise (fun a b _ _ hab hba => ?_) hrest hcons
    exact absurd (Nat.lt_trans hab hba) (Nat.lt_irrefl _)
  · exact absurd rfl (hno z hz)

end

/-! ## The whole iteration -/

/-- `for (n = a; n; n = rb_next(n))`: the nodes it visits, in at most `k` rounds. -/
def visit (n : ℕ) (r : Rbtree) : ℕ → Option ℕ → Option (List ℕ)
  | 0, _ => none
  | _ + 1, none => some []
  | k + 1, some a => do
    let next ← rbNext n r a
    return a :: (← visit n r k next)

def iterate (n : ℕ) (r : Rbtree) : Option (List ℕ) := do
  let a ← rbFirst n r
  visit n r n a

section

variable {r : Rbtree} {T : Shape ℕ} {n : ℕ}

theorem visit_spec (h : RepTree r T) (hn : T.items.length < n) {front rest : List ℕ} {k : ℕ}
    (hitems : T.items = front ++ rest) (hk : rest.length < k) : visit n r k rest.head? = some rest := by
  induction rest generalizing front k with
  | nil =>
    obtain ⟨k, rfl⟩ := Nat.exists_eq_succ_of_ne_zero (Nat.ne_of_gt hk)
    rfl
  | cons a rest ih =>
    obtain ⟨k, rfl⟩ := Nat.exists_eq_succ_of_ne_zero (Nat.ne_of_gt (Nat.zero_lt_of_lt hk))
    have hsplit : T.items = (front ++ [a]) ++ rest := by
      rw [hitems, append_assoc]
      rfl
    have hrest : visit n r k rest.head? = some rest := ih hsplit (Nat.lt_of_succ_lt_succ hk)
    rw [head?_cons, visit, rbNext_spec h hn hitems, Option.bind_eq_bind, Option.bind_some, hrest]
    rfl

theorem iterate_spec (h : RepTree r T) (hn : T.items.length < n) : iterate n r = some T.items := by
  unfold iterate
  rw [rbFirst_spec h hn, Option.bind_eq_bind, Option.bind_some]
  have hall : T.items = [] ++ T.items := rfl
  exact visit_spec h hn hall hn

end

/-- After every run from the empty tree, the iteration comes to each node of the map once, with ascending
keys, and then to the end. No loop of `rb_first` or `rb_next` makes more rounds than there were
operations. -/
theorem iterate_ascending (nodes : ℕ → RbtreeNode) {n : ℕ} {ops : List Op} (hn : ops.length < n) {w : World}
    (hrun : Run.run (step n) (start nodes) ops = some w) :
    ∃ visited, iterate n w.tree = some visited ∧ visited.Nodup ∧
      (∀ z, z ∈ visited ↔ z ∈ w.inserted) ∧
      visited.Pairwise fun a b => (w.tree.nodes a).key < (w.tree.nodes b).key := by
  obtain ⟨T, hT, hmap, hlen⟩ : Inv (0 + ops.length) w :=
    Run.run_induction_count (fun m s o s' hm hs h => step_inv hm hs h) (by omega) (start_inv nodes) hrun
  refine ⟨T.items, iterate_spec hT.rep (by omega), hT.rep.nodup, fun z => hmap.mem_iff.symm, hT.ordered⟩

/-- The run of seven nodes leaves the nodes 2 to 6. -/
theorem iterate_ascending_sample :
    ∃ w, Run.run (step 19) (start fun _ => withKey 0) sampleOps = some w ∧
      ∃ visited, iterate 19 w.tree = some visited ∧ visited.Nodup ∧
        (∀ z, z ∈ visited ↔ z ∈ w.inserted) ∧
        visited.Pairwise fun a b => (w.tree.nodes a).key < (w.tree.nodes b).key := by
  have hr : (Run.run (step 19) (start fun _ => withKey 0) sampleOps).isSome := by decide +kernel
  obtain ⟨w, hw⟩ := Option.isSome_iff_exists.mp hr
  exact ⟨w, hw, iterate_ascending _ (by decide) hw⟩

end LykOS.Rbtree
