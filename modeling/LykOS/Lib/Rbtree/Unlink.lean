import LykOS.Lib.Rbtree.Rep

/-!
# Taking a node out of the tree

The first part of `rb_remove`. A node with an empty child gives its place to the other child
(`transplant_spec`). A node `z` with two children is replaced by the smallest node `y` of its right subtree
(`treeMin_spec`): `y` leaves its own place (`raise_spec`) and takes over the place, the left child and the
colour of `z` (`takeover_spec`).
-/

namespace LykOS.Rbtree

open RedBlack RedBlack.Shape
open List hiding after

theorem treeMin_spec {r : Rbtree} {t : Shape ℕ} {p : Option ℕ} {n : ℕ} (hn : t.items.length < n)
    (ht : t ≠ .nil) (h : Rep r.nodes p t) :
    ∃ ctx c y X, t = plug ctx (branch .left c .nil y X) ∧ t.items = y :: (plug ctx X).items ∧
      treeMin r n t.root = some (some y) := by
  induction t generalizing p n with
  | nil => exact absurd rfl ht
  | node c l a s ihl =>
    obtain ⟨hcell, hl, -⟩ := h
    have hleft : (r.nodes a).left = l.root := hcell.near
    obtain ⟨m, rfl⟩ : ∃ m, n = m + 1 := ⟨n - 1, by omega⟩
    show ∃ ctx c' y X, _ ∧ _ ∧ treeMin r (m + 1) (some a) = some (some y)
    unfold treeMin
    rw [hleft]
    by_cases hnil : l = .nil
    · subst hnil
      exact ⟨[], c, a, s, rfl, rfl, if_pos rfl⟩
    · have hlen : l.items.length < m := by
        simp only [items, length_append, length_cons] at hn
        omega
      obtain ⟨ctx, c', y, X, hplug, hitems, hmin⟩ := ihl hlen hnil hl
      refine ⟨ctx ++ [⟨.left, c, a, s⟩], c', y, X, ?_, ?_, ?_⟩
      · rw [plug_append, ← hplug]
        rfl
      · rw [plug_append]
        show l.items ++ a :: s.items = y :: ((plug ctx X).items ++ a :: s.items)
        rw [hitems]
        rfl
      · rw [if_neg fun hroot => hnil (root_eq_none hroot)]
        exact hmin

/-! ## A node with two children -/

/-- The node `y` hangs free with the subtree `R` on its right, to take the place of `z`. -/
structure Raised (r : Rbtree) (ctx : List (Frame ℕ)) (c : Bool) (L : Shape ℕ) (z y : ℕ)
    (R : Shape ℕ) : Prop where
  root : r.root = rootOf ctx (some z)
  around : RepCtx r.nodes ctx (some z)
  place : ∃ q, Cell (r.nodes z) .left (above ctx) L.root q c
  left : Rep r.nodes (some z) L
  right : (r.nodes y).right = R.root
  below : Rep r.nodes (some y) R
  nodup : (y :: z :: (L.items ++ (R.items ++ ctxItems ctx))).Nodup

/-- What `rb_remove` does between the choice of `y` and the transplant of `z`; returned is also
`x_parent`. -/
def raise (r : Rbtree) (z y : ℕ) : Rbtree × Option ℕ :=
  let x := (r.nodes y).right
  if (r.nodes y).parent = some z then (r.reparent x (some y), some y)
  else
    let r := transplant r y x
    let r := r.setChild y .right (r.nodes z).right
    let r := r.reparent (r.nodes y).right (some y)
    (r, (r.nodes y).parent)

/-- What follows in `rb_remove`: `y` takes over the place, the left child and the colour of `z`. -/
def takeover (r : Rbtree) (z y : ℕ) : Rbtree :=
  let r := transplant r z (some y)
  let r := r.setChild y .left (r.nodes z).left
  let r := r.reparent (r.nodes y).left (some y)
  r.setRed y (r.nodes z).red

theorem unlink_two {r : Rbtree} {n z y : ℕ} (hl : (r.nodes z).left ≠ none)
    (hr : (r.nodes z).right ≠ none) (hmin : treeMin r n (r.nodes z).right = some (some y)) :
    unlink n r z = some (takeover (raise r z y).1 z y, (r.nodes y).right, (raise r z y).2,
      (r.nodes y).red) := by
  unfold unlink
  simp only [if_neg hl, if_neg hr, hmin, Option.bind_eq_bind, Option.bind_some, Option.pure_def]
  rfl

section Two

variable {r : Rbtree} {ctx : List (Frame ℕ)} {c : Bool} {z y : ℕ} {L R : Shape ℕ}

theorem takeover_spec (h : Raised r ctx c L z y R) :
    RepTree (takeover r z y) (plug ctx (branch .left c L y R)) ∧
      Same (y :: (L.items ++ ctxItems ctx)) r (takeover r z y) := by
  obtain ⟨hroot, hctx, ⟨q, hz⟩, hL, hright, hR, hnd⟩ := h
  obtain ⟨hyn, hnd₁⟩ := nodup_cons.mp hnd
  obtain ⟨hzn, hnd₂⟩ := nodup_cons.mp hnd₁
  obtain ⟨hLnd, hnd₃, hLn⟩ := nodup_append.mp hnd₂
  obtain ⟨-, hnd₄, hRn⟩ := nodup_append.mp hnd₃
  simp only [mem_cons, mem_append, not_or] at hyn hzn
  obtain ⟨hyz, hyL, hyR, hyctx⟩ := hyn
  obtain ⟨hzL, -, hzctx⟩ := hzn
  obtain ⟨hctx₁, hroot₁, s₁⟩ := replaceChild_spec .left hctx hz.parent hroot hnd₄ hzctx (some y)
  set r₁ := r.replaceChild .left z (some y) with hr₁
  set r₂ := r₁.setParent y (above ctx) with hr₂
  set r₃ := r₂.setChild y .left L.root with hr₃
  set r₄ := r₃.reparent L.root (some y) with hr₄
  set r₅ := r₄.setRed y c with hr₅
  have s₂ : Same [y] r₁ r₂ := setParent_same r₁ mem_cons_self _
  have s₃ : Same [y] r₂ r₃ := setChild_same r₂ mem_cons_self _ _
  have s₄ : Same L.items r₃ r₄ := reparent_same r₃ (fun a ha => mem_items_of_root ha) _
  have s₅ : Same [y] r₄ r₅ := setRed_same r₄ mem_cons_self _
  have hz₂ : r₂.nodes z = r.nodes z := (s₂.eq_of_ne (Ne.symm hyz)).trans (s₁.eq hzctx)
  have hy₁ : Cell (r₁.nodes y) .left (r.nodes y).parent (r.nodes y).left R.root (r.nodes y).red := by
    rw [s₁.eq hyctx]
    exact ⟨rfl, rfl, hright, rfl⟩
  have hy₃ : Cell (r₃.nodes y) .left (above ctx) L.root R.root (r.nodes y).red :=
    setChild_cell (setParent_cell hy₁ _) _
  have heq : takeover r z y = r₅ := by
    have htr : transplant r z (some y) = r₂ := by
      unfold transplant
      rw [hz.parent]
      rfl
    have hl₂ : (r₂.nodes z).left = L.root := by rw [hz₂]; exact hz.near
    have hl₃ : (r₃.nodes y).left = L.root := hy₃.near
    have hc₄ : (r₄.nodes z).red = c := by
      rw [s₄.eq hzL, s₃.eq_of_ne (Ne.symm hyz), hz₂]
      exact hz.red
    unfold takeover
    simp only [htr, hl₂, ← hr₃, hl₃, ← hr₄, hc₄, ← hr₅]
  rw [heq]
  refine ⟨repTree_plug ?_ ?_ (rep_branch.mpr ⟨?_, ?_, ?_⟩) ?_, ?_⟩
  · rw [root_branch, ← hroot₁, hr₅, hr₄]
    cases L.root <;> rfl
  · rw [root_branch]
    refine hctx₁.congr fun b hb => ?_
    have hby := ne_of_mem_of_not_mem hb hyctx
    rw [s₅.eq_of_ne hby, s₄.eq fun hb' => hLn b hb' b (mem_append_right _ hb) rfl,
      s₃.eq_of_ne hby, s₂.eq_of_ne hby]
  · have hy₄ : Cell (r₄.nodes y) .left (above ctx) L.root R.root (r.nodes y).red := by
      rw [s₄.eq hyL]
      exact hy₃
    exact setRed_cell hy₄ c
  · have hL₃ : Rep r₃.nodes (some z) L := by
      refine hL.congr fun b hb => ?_
      have hby := ne_of_mem_of_not_mem hb hyL
      rw [s₃.eq_of_ne hby, s₂.eq_of_ne hby,
        s₁.eq fun hb' => hLn b hb b (mem_append_right _ hb') rfl]
    exact (hL₃.reparent hLnd (some y)).congr fun b hb =>
      s₅.eq_of_ne (ne_of_mem_of_not_mem hb hyL)
  · refine hR.congr fun b hb => ?_
    have hby := ne_of_mem_of_not_mem hb hyR
    rw [s₅.eq_of_ne hby, s₄.eq fun hb' => hLn b hb' b (mem_append_left _ hb) rfl,
      s₃.eq_of_ne hby, s₂.eq_of_ne hby, s₁.eq fun hb' => hRn b hb b hb' rfl]
  · refine nodup_branch.mpr (hnd.sublist ?_)
    exact ((List.Sublist.refl _).cons z).cons_cons y
  · refine (s₁.append (s₂.append (s₃.append (s₄.append s₅)))).mono fun b hb => ?_
    simp only [mem_append, mem_singleton] at hb
    rw [mem_cons, mem_append]
    tauto

theorem raised_of_reparent {p q : Option ℕ} (hroot : r.root = rootOf ctx (some z))
    (hctx : RepCtx r.nodes ctx (some z)) (hz : Cell (r.nodes z) .left (above ctx) L.root q c)
    (hL : Rep r.nodes (some z) L) (hright : (r.nodes y).right = R.root) (hR : Rep r.nodes p R)
    (hnd : (y :: z :: (L.items ++ (R.items ++ ctxItems ctx))).Nodup) :
    Raised (r.reparent R.root (some y)) ctx c L z y R := by
  have s : Same R.items r (r.reparent R.root (some y)) :=
    reparent_same r (fun a ha => mem_items_of_root ha) _
  obtain ⟨hyn, hnd₁⟩ := nodup_cons.mp hnd
  obtain ⟨hzn, hnd₂⟩ := nodup_cons.mp hnd₁
  obtain ⟨-, hnd₃, hLn⟩ := nodup_append.mp hnd₂
  obtain ⟨hRnd, -, hRn⟩ := nodup_append.mp hnd₃
  simp only [mem_cons, mem_append, not_or] at hyn hzn
  refine ⟨?_, ?_, ⟨q, ?_⟩, ?_, ?_, hR.reparent hRnd (some y), hnd⟩
  · rw [← hroot]
    cases R.root <;> rfl
  · exact hctx.congr fun b hb => s.eq fun hb' => hRn b hb' b hb rfl
  · rw [s.eq hzn.2.1]
    exact hz
  · exact hL.congr fun b hb => s.eq fun hb' => hLn b hb b (mem_append_left _ hb') rfl
  · rw [s.eq hyn.2.2.1]
    exact hright

theorem raise_spec {rctx : List (Frame ℕ)} {cy : Bool} {X : Shape ℕ}
    (h : RepTree r (plug ctx (branch .left c L z (plug rctx (branch .left cy .nil y X)))))
    (hitems : (plug rctx (branch .left cy .nil y X)).items = y :: (plug rctx X).items) :
    ∃ r', raise r z y = (r', above (rctx ++ ⟨.right, c, y, L⟩ :: ctx)) ∧
      Raised r' ctx c L z y (plug rctx X) ∧
      Same (plug ctx (branch .left c L z (plug rctx (branch .left cy .nil y X)))).items r r' := by
  obtain ⟨hroot, hctx, hrep, hnd⟩ := h.split
  rw [root_branch] at hroot hctx
  obtain ⟨hz, hL, hR⟩ := rep_branch.mp hrep
  have hmem : ∀ b, b ∈ (plug ctx (branch .left c L z (plug rctx (branch .left cy .nil y X)))).items ↔
      (b = z ∨ b ∈ L.items ∨ b = y ∨ b ∈ (plug rctx X).items) ∨ b ∈ ctxItems ctx := by
    intro b
    rw [(items_plug_perm ctx _).mem_iff, mem_append, mem_items_branch, hitems, mem_cons]
  have hnd' : (y :: z :: (L.items ++ ((plug rctx X).items ++ ctxItems ctx))).Nodup := by
    have hz' := nodup_branch.mp hnd
    rw [hitems] at hz'
    exact (((perm_middle.cons z).trans (.swap y z _)).nodup_iff).mp hz'
  have hpos : RepTree r (plug (rctx ++ ⟨.right, c, z, L⟩ :: ctx) (branch .left cy .nil y X)) := by
    rw [plug_append]
    exact h
  have hy := hpos.cell
  have hright : (r.nodes y).right = X.root := hy.far
  obtain ⟨hyn, hnd₁⟩ := nodup_cons.mp hnd'
  obtain ⟨hzn, -⟩ := nodup_cons.mp hnd₁
  simp only [mem_cons, mem_append, not_or] at hyn hzn
  obtain ⟨hyz, hyL, hyR, hyctx⟩ := hyn
  obtain ⟨hzL, hzR, hzctx⟩ := hzn
  cases rctx with
  | nil =>
    -- `y` is the right child of `z`
    have hX : Rep r.nodes (some y) X := (rep_branch.mp hR).2.2
    have s₁ : Same X.items r (r.reparent X.root (some y)) :=
      reparent_same r (fun a ha => mem_items_of_root ha) _
    refine ⟨r.reparent X.root (some y), ?_, raised_of_reparent hroot hctx hz hL hright hX hnd', ?_⟩
    · have hparent : (r.nodes y).parent = some z := hy.parent
      unfold raise
      simp only [hparent, if_true, hright]
      rfl
    · exact s₁.mono fun b hb => (hmem b).mpr (Or.inl (Or.inr (Or.inr (Or.inr hb))))
  | cons f rctx =>
    have hparent : (r.nodes y).parent = some f.item := hy.parent
    have hfz : f.item ≠ z := by
      refine ne_of_mem_of_not_mem ((items_plug_perm (f :: rctx) X).mem_iff.mpr ?_) hzR
      exact mem_append_right _ mem_cons_self
    obtain ⟨hrep₁, s₁⟩ := transplant_spec hpos
    have hy₀ : y ∉ X.items ++ ctxItems ((f :: rctx) ++ ⟨.right, c, z, L⟩ :: ctx) :=
      (nodup_cons.mp (nodup_branch.mp hpos.split.2.2.2)).1
    set r₁ := transplant r y X.root with hr₁
    set R := plug (f :: rctx) X with hRdef
    set r₂ := r₁.setChild y .right R.root with hr₂
    set r₃ := r₂.reparent R.root (some y) with hr₃
    have s₂ : Same [y] r₁ r₂ := setChild_same r₁ mem_cons_self _ _
    have s₃ : Same R.items r₂ r₃ := reparent_same r₂ (fun a ha => mem_items_of_root ha) _
    have hpos₁ : RepTree r₁ (plug ctx (branch .left c L z R)) := by
      rw [plug_append] at hrep₁
      exact hrep₁
    obtain ⟨hroot₁, hctx₁, hrep₁, -⟩ := hpos₁.split
    rw [root_branch] at hroot₁ hctx₁
    obtain ⟨hz₁, hL₁, hR₁⟩ := rep_branch.mp hrep₁
    have hy₂ : Cell (r₂.nodes y) .right (some f.item) R.root (r.nodes y).left (r.nodes y).red := by
      have hy₁ : Cell (r₁.nodes y) .right (some f.item) X.root (r.nodes y).left (r.nodes y).red := by
        rw [s₁.eq hy₀]
        exact ⟨hparent, hright, rfl, rfl⟩
      exact setChild_cell hy₁ _
    have hctx₂ : RepCtx r₂.nodes ctx (some z) :=
      hctx₁.congr fun b hb => s₂.eq_of_ne (ne_of_mem_of_not_mem hb hyctx)
    have hz₂ : Cell (r₂.nodes z) .left (above ctx) L.root R.root c := by
      rw [s₂.eq_of_ne (Ne.symm hyz)]
      exact hz₁
    have hL₂ : Rep r₂.nodes (some z) L :=
      hL₁.congr fun b hb => s₂.eq_of_ne (ne_of_mem_of_not_mem hb hyL)
    have hR₂ : Rep r₂.nodes (some z) R :=
      hR₁.congr fun b hb => s₂.eq_of_ne (ne_of_mem_of_not_mem hb hyR)
    refine ⟨r₃, ?_, raised_of_reparent hroot₁ hctx₂ hz₂ hL₂ hy₂.near hR₂ hnd', ?_⟩
    · have hz₁' : (r₁.nodes z).right = R.root := hz₁.far
      have hy₂' : (r₂.nodes y).right = R.root := hy₂.near
      have hy₃ : (r₃.nodes y).parent = some f.item := by
        rw [s₃.eq hyR]
        exact hy₂.parent
      have hne : (r.nodes y).parent ≠ some z := by
        rw [hparent]
        exact fun hsome => hfz (Option.some.inj hsome)
      unfold raise
      simp only [if_neg hne, hright, ← hr₁, hz₁', ← hr₂, hy₂', ← hr₃, hy₃]
      rfl
    · have m₁ := s₁.mono fun b hb => (items_plug_perm _ (branch .left cy .nil y X)).mem_iff.mpr
        (mem_append.mpr ((mem_append.mp hb).imp_left fun hb' =>
          mem_items_branch.mpr (Or.inr (Or.inr hb'))))
      rw [plug_append] at m₁
      have m₂ := s₂.mono fun b hb => (hmem b).mpr
        (Or.inl (Or.inr (Or.inr (Or.inl (mem_singleton.mp hb)))))
      have m₃ := s₃.mono fun b hb => (hmem b).mpr (Or.inl (Or.inr (Or.inr (Or.inr hb))))
      exact (Same.trans m₁ m₂).trans m₃

end Two

/-! ## All cases -/

/-- The tree with `z` out of it, as a position: `m` black nodes below, and the context wants one more
if the node that left its place was black. -/
structure Unlinked (r r' : Rbtree) (ctx : List (Frame ℕ)) (t L R X : Shape ℕ)
    (ctx' : List (Frame ℕ)) (yRed : Bool) : Prop where
  rep : RepTree r' (plug ctx' X)
  items : (plug ctx' X).items = before ctx ++ (L.items ++ R.items ++ after ctx)
  same : Same (plug ctx t).items r r'
  bal : ∃ m, Bal X m ∧ if yRed then X.isRed = false ∧ CtxBal ctx' m false else CtxBal ctx' (m + 1) false

section Unlink

variable {r : Rbtree} {ctx : List (Frame ℕ)} {c : Bool} {z : ℕ} {L R : Shape ℕ}

theorem transplant_unlinked {d : Side} {X : Shape ℕ} (h : RepTree r (plug ctx (branch d c .nil z X)))
    (hrb : RB (plug ctx (branch d c .nil z X))) (hX : X.items = L.items ++ R.items) :
    Unlinked r (transplant r z X.root) ctx (branch d c .nil z X) L R X ctx c := by
  obtain ⟨hrep, hsame⟩ := transplant_spec h
  refine ⟨hrep, ?_, hsame.mono fun b hb => ?_, of_plug_branch_nil hrb⟩
  · rw [items_plug, hX]
  · rw [(items_plug_perm ctx _).mem_iff, mem_append, mem_items_branch]
    rcases mem_append.mp hb with hb | hb
    · exact Or.inl (Or.inr (Or.inr hb))
    · exact Or.inr hb

theorem unlink_spec {n : ℕ} (h : RepTree r (plug ctx (branch .left c L z R)))
    (hrb : RB (plug ctx (branch .left c L z R))) (hn : R.items.length < n) :
    ∃ r' ctx' X yRed, unlink n r z = some (r', X.root, above ctx', yRed) ∧
      Unlinked r r' ctx (branch .left c L z R) L R X ctx' yRed := by
  have hz := h.cell
  have hleft : (r.nodes z).left = L.root := hz.near
  have hright : (r.nodes z).right = R.root := hz.far
  by_cases hL : L = .nil
  · subst hL
    have hL' : (r.nodes z).left = none := hleft
    refine ⟨_, ctx, R, c, ?_, transplant_unlinked h hrb rfl⟩
    unfold unlink
    dsimp only
    rw [if_pos hL', hright, hz.parent, hz.red]
  by_cases hR : R = .nil
  · subst hR
    have h' : RepTree r (plug ctx (branch .right c .nil z L)) := h
    have hL' : (r.nodes z).left ≠ none := by
      rw [hleft]
      exact fun hroot => hL (root_eq_none hroot)
    have hR' : (r.nodes z).right = none := hright
    refine ⟨_, ctx, L, c, ?_, transplant_unlinked h' hrb (List.append_nil _).symm⟩
    unfold unlink
    dsimp only
    rw [if_neg hL', if_pos hR', hleft, hz.parent, hz.red]
  · obtain ⟨-, -, hrepR⟩ := rep_branch.mp h.split.2.2.1
    obtain ⟨rctx, cy, y, X, rfl, hitems, hmin⟩ := treeMin_spec hn hR hrepR
    obtain ⟨r₁, hraise, hraised, s₁⟩ := raise_spec h hitems
    obtain ⟨hrep₂, s₂⟩ := takeover_spec hraised
    have hpos : plug (rctx ++ ⟨.right, c, z, L⟩ :: ctx) (branch .left cy .nil y X) =
        plug ctx (branch .left c L z (plug rctx (branch .left cy .nil y X))) := plug_append ..
    have hpos' : plug (rctx ++ ⟨.right, c, y, L⟩ :: ctx) X =
        plug ctx (branch .left c L y (plug rctx X)) := plug_append ..
    have hy : Cell (r.nodes y) .left _ _ _ _ := (hpos ▸ h : RepTree r _).cell
    refine ⟨takeover r₁ z y, rctx ++ ⟨.right, c, y, L⟩ :: ctx, X, cy, ?_, ?_, ?_, ?_, ?_⟩
    · rw [← hright] at hmin
      rw [unlink_two _ _ hmin, hraise, hy.red]
      · rw [show (r.nodes y).right = X.root from hy.far]
      · rw [hleft]
        exact fun hroot => hL (root_eq_none hroot)
      · rw [hright]
        exact fun hroot => hR (root_eq_none hroot)
    · rw [hpos']
      exact hrep₂
    · rw [hpos', items_plug, hitems]
      show before ctx ++ (L.items ++ y :: (plug rctx X).items ++ after ctx) = _
      rfl
    · refine s₁.trans (s₂.mono fun b hb => ?_)
      rw [(items_plug_perm ctx _).mem_iff, mem_append, mem_items_branch, hitems, mem_cons]
      rw [mem_cons, mem_append] at hb
      tauto
    · rw [← hpos] at hrb
      obtain ⟨m, hX, hctx⟩ := of_plug_branch_nil hrb
      refine ⟨m, hX, ?_⟩
      cases cy with
      | true => exact ⟨hctx.1, CtxBal.replace hctx.2⟩
      | false => exact CtxBal.replace hctx

end Unlink

end LykOS.Rbtree
