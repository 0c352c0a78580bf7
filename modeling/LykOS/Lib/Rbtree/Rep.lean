import LykOS.Lib.Rbtree.Model

/-!
# Trees in memory

`Rep nodes p t` says that memory holds the tree `t` below the node `p`: its links, parent pointers and
colours. `RepTree` adds the root pointer and that no node occurs twice. Since a context and the tree
in its hole make up a tree, `RepTree r (plug ctx t)` also describes a position in the tree, and
each pointer operation of the source replaces the tree in the hole: `rotate_spec`, `setRed_spec` and
`transplant_spec`.
-/

namespace LykOS.Rbtree

open RedBlack RedBlack.Shape List

/-- The fields of a node other than its key and value, seen from side `d`. -/
structure Cell (n : RbtreeNode) (d : Side) (parent near far : Option ℕ) (red : Bool) : Prop where
  parent : n.parent = parent
  near : n.child d = near
  far : n.child d.other = far
  red : n.red = red

variable {a : ℕ} {p s t : Option ℕ} {r : Rbtree} {S : List ℕ} {d : Side} {c : Bool}
  {nodes : ℕ → RbtreeNode} {ctx : List (Frame ℕ)}

theorem cell_other {n : RbtreeNode} : Cell n d.other p s t c ↔ Cell n d p t s c := by
  constructor
  · rintro ⟨h1, h2, h3, h4⟩
    rw [Side.other_other] at h3
    exact ⟨h1, h3, h2, h4⟩
  · rintro ⟨h1, h2, h3, h4⟩
    refine ⟨h1, h3, ?_, h4⟩
    rw [Side.other_other]
    exact h2

/-- Memory holds `t` below the node `p`. -/
def Rep (nodes : ℕ → RbtreeNode) : Option ℕ → Shape ℕ → Prop
  | _, .nil => True
  | p, .node c l a r =>
    Cell (nodes a) .left p l.root r.root c ∧ Rep nodes (some a) l ∧ Rep nodes (some a) r

/-- Memory holds the context around a tree with root `hole`. -/
def RepCtx (nodes : ℕ → RbtreeNode) : List (Frame ℕ) → Option ℕ → Prop
  | [], _ => True
  | f :: ctx, hole =>
    Cell (nodes f.item) f.side (above ctx) hole f.sibling.root f.red ∧
      Rep nodes (some f.item) f.sibling ∧ RepCtx nodes ctx (some f.item)

theorem rep_branch {s t : Shape ℕ} : Rep nodes p (branch d c s a t) ↔
      Cell (nodes a) d p s.root t.root c ∧ Rep nodes (some a) s ∧ Rep nodes (some a) t := by
  cases d with
  | left => exact Iff.rfl
  | right =>
    show Cell (nodes a) .left p t.root s.root c ∧ _ ∧ _ ↔ _
    rw [show Side.left = Side.right.other from rfl, cell_other, and_congr_right_iff]
    exact fun _ => And.comm

theorem Rep.congr {nodes' : ℕ → RbtreeNode} {t : Shape ℕ} (h : Rep nodes p t)
    (he : ∀ b ∈ t.items, nodes' b = nodes b) : Rep nodes' p t := by
  induction t generalizing p with
  | nil => trivial
  | node c l a r ihl ihr =>
    obtain ⟨h1, h2, h3⟩ := h
    refine ⟨?_, ihl h2 fun b hb => he b ?_, ihr h3 fun b hb => he b ?_⟩
    · rw [he a (mem_append_right _ mem_cons_self)]
      exact h1
    · exact mem_append_left _ hb
    · exact mem_append_right _ (mem_cons_of_mem _ hb)

theorem RepCtx.congr {nodes' : ℕ → RbtreeNode} {hole : Option ℕ} (h : RepCtx nodes ctx hole)
    (he : ∀ b ∈ ctxItems ctx, nodes' b = nodes b) : RepCtx nodes' ctx hole := by
  induction ctx generalizing hole with
  | nil => trivial
  | cons f ctx ih =>
    obtain ⟨h1, h2, h3⟩ := h
    refine ⟨?_, h2.congr fun b hb => he b ?_, ih h3 fun b hb => he b ?_⟩
    · rw [he f.item mem_cons_self]
      exact h1
    · exact mem_cons_of_mem _ (mem_append_left _ hb)
    · exact mem_cons_of_mem _ (mem_append_right _ hb)

theorem rep_plug {t : Shape ℕ} :
    Rep nodes none (plug ctx t) ↔ RepCtx nodes ctx t.root ∧ Rep nodes (above ctx) t := by
  induction ctx generalizing t with
  | nil => exact (true_and _).to_iff.symm
  | cons f ctx ih =>
    show Rep nodes none (plug ctx (f.fill t)) ↔ _
    rw [ih]
    unfold Frame.fill
    rw [rep_branch, root_branch]
    show _ ↔ (Cell _ _ _ _ _ _ ∧ _ ∧ RepCtx nodes ctx (some f.item)) ∧ Rep nodes (some f.item) t
    tauto

/-! ## Writes -/

/-- Nodes outside `S` are unchanged, and no node changes its key or value. -/
def Same (S : List ℕ) (r r' : Rbtree) : Prop :=
  ∀ b, (r'.nodes b).key = (r.nodes b).key ∧ (r'.nodes b).value = (r.nodes b).value ∧
    (b ∉ S → r'.nodes b = r.nodes b)

theorem Same.refl (S : List ℕ) (r : Rbtree) : Same S r r := fun _ => ⟨rfl, rfl, fun _ => rfl⟩

theorem Same.trans {r' r'' : Rbtree} (h : Same S r r') (h' : Same S r' r'') : Same S r r'' := by
  intro b
  obtain ⟨h1, h2, h3⟩ := h b
  obtain ⟨h4, h5, h6⟩ := h' b
  exact ⟨h4.trans h1, h5.trans h2, fun hb => (h6 hb).trans (h3 hb)⟩

theorem Same.mono {S' : List ℕ} {r' : Rbtree} (h : Same S r r') (hs : ∀ b ∈ S, b ∈ S') :
    Same S' r r' := fun b => ⟨(h b).1, (h b).2.1, fun hb => (h b).2.2 fun hb' => hb (hs b hb')⟩

theorem Same.append {S' : List ℕ} {r' r'' : Rbtree} (h : Same S r r') (h' : Same S' r' r'') :
    Same (S ++ S') r r'' :=
  (h.mono fun _ => mem_append_left _).trans (h'.mono fun _ => mem_append_right _)

theorem modify_self (r : Rbtree) (a : ℕ) (f : RbtreeNode → RbtreeNode) :
    (r.modify a f).nodes a = f (r.nodes a) := Function.update_self _ _ _

theorem modify_of_ne (r : Rbtree) {b : ℕ} (f : RbtreeNode → RbtreeNode) (h : b ≠ a) :
    (r.modify a f).nodes b = r.nodes b := Function.update_of_ne h _ _

theorem modify_same (r : Rbtree) (ha : a ∈ S) {f : RbtreeNode → RbtreeNode}
    (hf : (f (r.nodes a)).key = (r.nodes a).key ∧ (f (r.nodes a)).value = (r.nodes a).value) :
    Same S r (r.modify a f) := by
  intro b
  by_cases hb : b = a
  · subst hb
    rw [modify_self]
    exact ⟨hf.1, hf.2, fun h => absurd ha h⟩
  · rw [modify_of_ne r f hb]
    exact ⟨rfl, rfl, fun _ => rfl⟩

theorem setParent_same (r : Rbtree) (ha : a ∈ S) (p : Option ℕ) :
    Same S r (r.setParent a p) := modify_same r ha ⟨rfl, rfl⟩

theorem setRed_same (r : Rbtree) (ha : a ∈ S) (c : Bool) :
    Same S r (r.setRed a c) := modify_same r ha ⟨rfl, rfl⟩

theorem setChild_same (r : Rbtree) (ha : a ∈ S) (d : Side) (p : Option ℕ) :
    Same S r (r.setChild a d p) := by
  apply modify_same r ha
  cases d <;> exact ⟨rfl, rfl⟩

theorem reparent_same (r : Rbtree) (hp : ∀ a, p = some a → a ∈ S) (q : Option ℕ) :
    Same S r (r.reparent p q) := by
  cases p with
  | none => exact Same.refl S r
  | some a => exact setParent_same r (hp a rfl) q

theorem setChild_cell (h : Cell (r.nodes a) d p s t c) (s' : Option ℕ) :
    Cell ((r.setChild a d s').nodes a) d p s' t c := by
  unfold setChild
  rw [modify_self]
  obtain ⟨h1, h2, h3, h4⟩ := h
  cases d
  · exact ⟨h1, rfl, h3, h4⟩
  · exact ⟨h1, rfl, h3, h4⟩

theorem setChild_other_cell (h : Cell (r.nodes a) d p s t c) (t' : Option ℕ) :
    Cell ((r.setChild a d.other t').nodes a) d p s t' c :=
  cell_other.mp (setChild_cell (cell_other.mpr h) t')

theorem setParent_cell (h : Cell (r.nodes a) d p s t c) (p' : Option ℕ) :
    Cell ((r.setParent a p').nodes a) d p' s t c := by
  unfold setParent
  rw [modify_self]
  obtain ⟨h1, h2, h3, h4⟩ := h
  refine ⟨rfl, ?_, ?_, h4⟩
  · rw [← h2]
    cases d <;> rfl
  · rw [← h3]
    cases d <;> rfl

theorem setRed_cell (h : Cell (r.nodes a) d p s t c) (c' : Bool) :
    Cell ((r.setRed a c').nodes a) d p s t c' := by
  unfold setRed
  rw [modify_self]
  obtain ⟨h1, h2, h3, h4⟩ := h
  refine ⟨h1, ?_, ?_, rfl⟩
  · rw [← h2]
    cases d <;> rfl
  · rw [← h3]
    cases d <;> rfl

theorem Rep.reparent {t : Shape ℕ} (h : Rep r.nodes p t) (hnd : t.items.Nodup) (q : Option ℕ) :
    Rep (r.reparent t.root q).nodes q t := by
  cases t with
  | nil => trivial
  | node c l a s =>
    obtain ⟨h1, h2, h3⟩ := h
    obtain ⟨ha, -⟩ := nodup_cons.mp (perm_middle.nodup_iff.mp hnd)
    rw [mem_append, not_or] at ha
    refine ⟨setParent_cell h1 q, h2.congr fun b hb => ?_, h3.congr fun b hb => ?_⟩
    · show (r.setParent a q).nodes b = r.nodes b
      exact modify_of_ne r _ (ne_of_mem_of_not_mem hb ha.1)
    · show (r.setParent a q).nodes b = r.nodes b
      exact modify_of_ne r _ (ne_of_mem_of_not_mem hb ha.2)

theorem RepCtx.setChild {f : Frame ℕ} {hole : Option ℕ} (h : RepCtx r.nodes (f :: ctx) hole)
    (hnd : (ctxItems (f :: ctx)).Nodup) (v : Option ℕ) :
    RepCtx (r.setChild f.item f.side v).nodes (f :: ctx) v := by
  obtain ⟨hcell, hs, hctx⟩ := h
  obtain ⟨hf, -⟩ := nodup_cons.mp hnd
  rw [mem_append, not_or] at hf
  refine ⟨setChild_cell hcell v, hs.congr fun b hb => ?_, hctx.congr fun b hb => ?_⟩
  · exact modify_of_ne _ _ (ne_of_mem_of_not_mem hb hf.1)
  · exact modify_of_ne _ _ (ne_of_mem_of_not_mem hb hf.2)

theorem replaceChild_spec (d : Side) {u : ℕ} (hctx : RepCtx r.nodes ctx (some u))
    (hp : (r.nodes u).parent = above ctx) (hroot : r.root = rootOf ctx (some u))
    (hnd : (ctxItems ctx).Nodup) (hu : u ∉ ctxItems ctx) (v : Option ℕ) :
    RepCtx (r.replaceChild d u v).nodes ctx v ∧ (r.replaceChild d u v).root = rootOf ctx v ∧
      Same (ctxItems ctx) r (r.replaceChild d u v) := by
  cases ctx with
  | nil =>
    have hrc : r.replaceChild d u v = { r with root := v } := by
      unfold replaceChild
      rw [hp]
      rfl
    rw [hrc]
    exact ⟨trivial, rfl, Same.refl _ _⟩
  | cons f ctx =>
    obtain ⟨e, c, a, s⟩ := f
    have hcell : Cell (r.nodes a) e (above ctx) (some u) s.root c := hctx.1
    have hrc : r.replaceChild d u v = r.setChild a e v := by
      unfold replaceChild
      rw [hp]
      show (if (r.nodes a).child d = some u then r.setChild a d v else r.setChild a d.other v) = _
      rcases Side.eq_or d e with rfl | rfl
      · rw [if_pos hcell.near]
      · have hfar := hcell.far
        rw [Side.other_other] at hfar
        rw [if_neg]
        rw [hfar]
        intro hsu
        exact hu (mem_cons_of_mem _ (mem_append_left _ (mem_items_of_root hsu)))
    rw [hrc]
    exact ⟨hctx.setChild hnd v, hroot, setChild_same r mem_cons_self e v⟩

/-! ## Positions in the tree -/

/-- Memory and the root pointer hold the tree `t`. -/
structure RepTree (r : Rbtree) (t : Shape ℕ) : Prop where
  root : r.root = t.root
  rep : Rep r.nodes none t
  nodup : t.items.Nodup

section Position

variable {r : Rbtree} {ctx : List (Frame ℕ)} {d : Side} {c : Bool} {s t : Shape ℕ} {a : ℕ}

theorem nodup_branch {l : List ℕ} : ((branch d c s a t).items ++ l).Nodup ↔
    (a :: (s.items ++ (t.items ++ l))).Nodup := by
  rw [((items_branch_perm d c s t a).append_right l).nodup_iff, cons_append, append_assoc]

theorem RepTree.split (h : RepTree r (plug ctx t)) :
    r.root = rootOf ctx t.root ∧ RepCtx r.nodes ctx t.root ∧ Rep r.nodes (above ctx) t ∧
      (t.items ++ ctxItems ctx).Nodup := by
  obtain ⟨h1, h2⟩ := rep_plug.mp h.rep
  refine ⟨?_, h1, h2, (items_plug_perm ctx t).nodup_iff.mp h.nodup⟩
  rw [h.root, root_plug]

theorem repTree_plug (hroot : r.root = rootOf ctx t.root) (hctx : RepCtx r.nodes ctx t.root)
    (ht : Rep r.nodes (above ctx) t) (hnd : (t.items ++ ctxItems ctx).Nodup) :
    RepTree r (plug ctx t) :=
  ⟨by rw [hroot, root_plug], rep_plug.mpr ⟨hctx, ht⟩, (items_plug_perm ctx t).nodup_iff.mpr hnd⟩

theorem RepTree.cell (h : RepTree r (plug ctx (branch d c s a t))) :
    Cell (r.nodes a) d (above ctx) s.root t.root c := (rep_branch.mp h.split.2.2.1).1

theorem RepTree.isRed (h : RepTree r (plug ctx t)) : r.isRed t.root = t.isRed := by
  cases t with
  | nil => rfl
  | node c l a s => exact h.split.2.2.1.1.red

theorem setRed_spec (h : RepTree r (plug ctx (branch d c s a t))) (c' : Bool) :
    RepTree (r.setRed a c') (plug ctx (branch d c' s a t)) := by
  obtain ⟨hroot, hctx, hrep, hnd⟩ := h.split
  obtain ⟨hcell, hs, ht⟩ := rep_branch.mp hrep
  rw [root_branch] at hroot hctx
  have ha := (nodup_cons.mp (nodup_branch.mp hnd)).1
  rw [mem_append, mem_append, not_or, not_or] at ha
  obtain ⟨has, hat, hac⟩ := ha
  refine repTree_plug (by rw [root_branch]; exact hroot) ?_ ?_ ?_
  · rw [root_branch]
    exact hctx.congr fun b hb => modify_of_ne _ _ (ne_of_mem_of_not_mem hb hac)
  · refine rep_branch.mpr ⟨setRed_cell hcell c', hs.congr fun b hb => ?_, ht.congr fun b hb => ?_⟩
    · exact modify_of_ne _ _ (ne_of_mem_of_not_mem hb has)
    · exact modify_of_ne _ _ (ne_of_mem_of_not_mem hb hat)
  · rw [items_recolor d c' c]
    exact hnd

theorem Same.eq {S : List ℕ} {r r' : Rbtree} (h : Same S r r') {b : ℕ} (hb : b ∉ S) :
    r'.nodes b = r.nodes b := (h b).2.2 hb

theorem Same.eq_of_ne {a b : ℕ} {r r' : Rbtree} (h : Same [a] r r') (hb : b ≠ a) :
    r'.nodes b = r.nodes b := h.eq fun hmem => hb (mem_singleton.mp hmem)

theorem rotate_spec {c' : Bool} {A B C : Shape ℕ} {x y : ℕ}
    (h : RepTree r (plug ctx (branch d c A x (branch d c' B y C)))) :
    ∃ r', rotate d r x = some r' ∧
      RepTree r' (plug ctx (branch d c' (branch d c A x B) y C)) ∧
      Same (plug ctx (branch d c A x (branch d c' B y C))).items r r' := by
  obtain ⟨hroot, hctx, hrep, hnd⟩ := h.split
  obtain ⟨hx, hA, hrep⟩ := rep_branch.mp hrep
  obtain ⟨hy, hB, hC⟩ := rep_branch.mp hrep
  rw [root_branch] at hroot hctx hx
  obtain ⟨hxn, hnd₁⟩ := nodup_cons.mp (nodup_branch.mp hnd)
  obtain ⟨-, hnd₂, hAn⟩ := nodup_append.mp hnd₁
  obtain ⟨hyn, hnd₃⟩ := nodup_cons.mp (nodup_branch.mp hnd₂)
  obtain ⟨hBnd, hnd₄, hBn⟩ := nodup_append.mp hnd₃
  obtain ⟨-, hnd₅, hCn⟩ := nodup_append.mp hnd₄
  simp only [mem_append, mem_items_branch, not_or] at hxn hyn
  obtain ⟨hxA, ⟨hxy, hxB, hxC⟩, hxctx⟩ := hxn
  obtain ⟨hyB, hyC, hyctx⟩ := hyn
  set r₁ := r.setChild x d.other B.root with hr₁
  set r₂ := r₁.reparent B.root (some x) with hr₂
  set r₃ := r₂.setParent y (above ctx) with hr₃
  set r₄ := r₃.replaceChild d x (some y) with hr₄
  set r₅ := r₄.setChild y d (some x) with hr₅
  set r₆ := r₅.setParent x (some y) with hr₆
  have s₁ : Same [x] r r₁ := setChild_same r mem_cons_self _ _
  have s₂ : Same B.items r₁ r₂ := reparent_same r₁ (fun a ha => mem_items_of_root ha) _
  have s₃ : Same [y] r₂ r₃ := setParent_same r₂ mem_cons_self _
  have s₅ : Same [y] r₄ r₅ := setChild_same r₄ mem_cons_self _ _
  have s₆ : Same [x] r₅ r₆ := setParent_same r₅ mem_cons_self _
  have hx₁ : Cell (r₁.nodes x) d (above ctx) A.root B.root c := setChild_other_cell hx _
  have hx₃ : r₃.nodes x = r₁.nodes x := (s₃.eq_of_ne hxy).trans (s₂.eq hxB)
  have hctx₃ : RepCtx r₃.nodes ctx (some x) := by
    refine hctx.congr fun b hb => ?_
    rw [s₃.eq_of_ne (ne_of_mem_of_not_mem hb hyctx),
      s₂.eq fun hb' => hBn b hb' b (mem_append_right _ hb) rfl, s₁.eq_of_ne (ne_of_mem_of_not_mem hb hxctx)]
  have hroot₃ : r₃.root = rootOf ctx (some x) := by
    rw [← hroot, hr₃, hr₂]
    cases B.root <;> rfl
  have hp₃ : (r₃.nodes x).parent = above ctx := by rw [hx₃, hx₁.parent]
  obtain ⟨hctx₄, hroot₄, s₄⟩ := replaceChild_spec d hctx₃ hp₃ hroot₃ hnd₅ hxctx (some y)
  rw [← hr₄] at hctx₄ hroot₄ s₄
  have hkeep : ∀ b, b ≠ x → b ≠ y → b ∉ B.items → b ∉ ctxItems ctx → r₆.nodes b = r.nodes b := by
    intro b hbx hby hbB hbctx
    rw [s₆.eq_of_ne hbx, s₅.eq_of_ne hby, s₄.eq hbctx, s₃.eq_of_ne hby, s₂.eq hbB, s₁.eq_of_ne hbx]
  refine ⟨r₆, ?_, ?_, ?_⟩
  · have hparent : (r₂.nodes x).parent = above ctx := by rw [s₂.eq hxB, hx₁.parent]
    unfold rotate
    simp only [hx.far, Option.bind_eq_bind, Option.bind_some, hy.near, ← hr₁, ← hr₂, hparent, ← hr₃,
      ← hr₄, ← hr₅, Option.pure_def, ← hr₆]
  · refine repTree_plug (by rw [root_branch]; exact hroot₄) ?_ ?_ ?_
    · rw [root_branch]
      refine hctx₄.congr fun b hb => ?_
      rw [s₆.eq_of_ne (ne_of_mem_of_not_mem hb hxctx), s₅.eq_of_ne (ne_of_mem_of_not_mem hb hyctx)]
    · refine rep_branch.mpr ⟨?_, rep_branch.mpr ⟨?_, ?_, ?_⟩, ?_⟩
      · have hy₂ : Cell (r₂.nodes y) d (some x) B.root C.root c' := by
          rw [s₂.eq hyB, s₁.eq_of_ne (Ne.symm hxy)]
          exact hy
        have hy₄ : Cell (r₄.nodes y) d (above ctx) B.root C.root c' := by
          rw [s₄.eq hyctx]
          exact setParent_cell hy₂ _
        rw [s₆.eq_of_ne (Ne.symm hxy), root_branch]
        exact setChild_cell hy₄ _
      · have hx₅ : Cell (r₅.nodes x) d (above ctx) A.root B.root c := by
          rw [s₅.eq_of_ne hxy, s₄.eq hxctx, hx₃]
          exact hx₁
        exact setParent_cell hx₅ _
      · refine hA.congr fun b hb => hkeep b (ne_of_mem_of_not_mem hb hxA) ?_ ?_ ?_
        · exact hAn b hb y (by simp [mem_items_branch])
        · exact fun hb' => hAn b hb b (by simp [mem_items_branch, hb']) rfl
        · exact fun hb' => hAn b hb b (by simp [hb']) rfl
      · have hB₁ : Rep r₁.nodes (some y) B :=
          hB.congr fun b hb => s₁.eq_of_ne (ne_of_mem_of_not_mem hb hxB)
        refine (hB₁.reparent hBnd (some x)).congr fun b hb => ?_
        rw [s₆.eq_of_ne (ne_of_mem_of_not_mem hb hxB), s₅.eq_of_ne (ne_of_mem_of_not_mem hb hyB),
          s₄.eq fun hb' => hBn b hb b (mem_append_right _ hb') rfl,
          s₃.eq_of_ne (ne_of_mem_of_not_mem hb hyB)]
      · refine hC.congr fun b hb => hkeep b (ne_of_mem_of_not_mem hb hxC)
          (ne_of_mem_of_not_mem hb hyC) ?_ fun hb' => hCn b hb b hb' rfl
        exact fun hb' => hBn b hb' b (mem_append_left _ hb) rfl
    · rw [← items_rotate d c c' c' c]
      exact hnd
  · refine (s₁.append (s₂.append (s₃.append (s₄.append (s₅.append s₆))))).mono fun b hb => ?_
    simp only [mem_append, mem_singleton] at hb
    rw [(items_plug_perm ctx _).mem_iff, mem_append, mem_items_branch, mem_items_branch]
    tauto

theorem transplant_spec {u : ℕ} {X : Shape ℕ} (h : RepTree r (plug ctx (branch d c .nil u X))) :
    RepTree (transplant r u X.root) (plug ctx X) ∧
      Same (X.items ++ ctxItems ctx) r (transplant r u X.root) := by
  obtain ⟨hroot, hctx, hrep, hnd⟩ := h.split
  obtain ⟨hu, -, hX⟩ := rep_branch.mp hrep
  rw [root_branch] at hroot hctx
  have hnd₀ : (u :: (X.items ++ ctxItems ctx)).Nodup := nodup_branch.mp hnd
  obtain ⟨hun, hnd₁⟩ := nodup_cons.mp hnd₀
  obtain ⟨hXnd, hnd₂, hXn⟩ := nodup_append.mp hnd₁
  have hunX : u ∉ ctxItems ctx := fun hm => hun (mem_append_right _ hm)
  obtain ⟨hctx₁, hroot₁, s₁⟩ := replaceChild_spec .left hctx hu.parent hroot hnd₂ hunX X.root
  set r₁ := r.replaceChild .left u X.root with hr₁
  have s₂ : Same X.items r₁ (r₁.reparent X.root (above ctx)) :=
    reparent_same r₁ (fun a ha => mem_items_of_root ha) _
  have heq : transplant r u X.root = r₁.reparent X.root (above ctx) := by
    unfold transplant
    rw [hu.parent]
  rw [heq]
  have hX₁ : Rep r₁.nodes (some u) X :=
    hX.congr fun b hb => s₁.eq fun hb' => hXn b hb b hb' rfl
  refine ⟨repTree_plug ?_ ?_ (hX₁.reparent hXnd _) hnd₁, ?_⟩
  · rw [← hroot₁]
    cases X.root <;> rfl
  · exact hctx₁.congr fun b hb => s₂.eq fun hb' => hXn b hb' b hb rfl
  · exact (s₁.mono fun b hb => mem_append_right _ hb).trans
      (s₂.mono fun b hb => mem_append_left _ hb)

theorem plug_far (ctx : List (Frame ℕ)) (d : Side) (c : Bool) (s t : Shape ℕ) (a : ℕ) :
    plug (⟨d.other, c, a, s⟩ :: ctx) t = plug ctx (branch d c s a t) := by
  show plug ctx (branch d.other c t a s) = _
  rw [branch_other]

theorem recolor_root_spec (h : RepTree r t) :
    RepTree (r.recolor r.root false) t.blacken ∧ Same t.items r (r.recolor r.root false) := by
  rw [h.root]
  cases t with
  | nil => exact ⟨h, Same.refl _ _⟩
  | node c l a s =>
    have h' : RepTree r (plug [] (branch .left c l a s)) := h
    refine ⟨setRed_spec h' false, setRed_same r ?_ false⟩
    exact mem_append_right _ mem_cons_self

end Position

end LykOS.Rbtree
