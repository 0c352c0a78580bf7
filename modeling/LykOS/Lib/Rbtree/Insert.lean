import LykOS.Lib.Rbtree.Rep

/-!
# Insertion

The fix-up of `rb_insert` turns a tree whose only fault is a red node below a red node, at a
position, into a red-black tree with the same items (`fixInsert_spec`). The search finds the key or
the empty place where it belongs (`insertPlace_spec`), and a node is attached there (`attach_spec`).
-/

namespace LykOS.Rbtree

open RedBlack RedBlack.Shape
open List hiding after

/-- What the operations on a tree in memory keep: the items and the data of the nodes. -/
structure Reshaped (r r' : Rbtree) (t t' : Shape ℕ) : Prop where
  rep : RepTree r' t'
  items : t'.items = t.items
  same : Same t.items r r'

theorem Reshaped.trans {r r' r'' : Rbtree} {t t' t'' : Shape ℕ} (h : Reshaped r r' t t')
    (h' : Reshaped r' r'' t' t'') : Reshaped r r'' t t'' := by
  refine ⟨h'.rep, h'.items.trans h.items, h.same.trans ?_⟩
  rw [← h.items]
  exact h'.same

theorem Reshaped.refl {r : Rbtree} {t : Shape ℕ} (h : RepTree r t) : Reshaped r r t t :=
  ⟨h, rfl, Same.refl _ _⟩

section

variable {r : Rbtree} {ctx : List (Frame ℕ)} {d : Side} {c : Bool} {s t u : Shape ℕ} {a : ℕ}

theorem items_plug_congr {t' : Shape ℕ} (h : t'.items = t.items) :
    (plug ctx t').items = (plug ctx t).items := by rw [items_plug, items_plug, h]

theorem Reshaped.of_eq {r' : Rbtree} {t₁ t₂ t₁' t₂' : Shape ℕ} (h : Reshaped r r' t₁ t₂)
    (h₁ : t₁ = t₁') (h₂ : t₂ = t₂') : Reshaped r r' t₁' t₂' := h₁ ▸ h₂ ▸ h

theorem mem_items_plug {b : ℕ} (h : b ∈ t.items) : b ∈ (plug ctx t).items :=
  (items_plug_perm ctx t).mem_iff.mpr (mem_append_left _ h)

theorem setRed_reshaped (h : RepTree r (plug ctx (branch d c s a t))) (c' : Bool) :
    Reshaped r (r.setRed a c') (plug ctx (branch d c s a t)) (plug ctx (branch d c' s a t)) := by
  refine ⟨setRed_spec h c', items_plug_congr (items_recolor d c' c s t a), setRed_same r ?_ c'⟩
  exact mem_items_plug (mem_items_branch.mpr (Or.inl rfl))

theorem rotate_reshaped {c' : Bool} {A B C : Shape ℕ} {x y : ℕ}
    (h : RepTree r (plug ctx (branch d c A x (branch d c' B y C)))) :
    ∃ r', rotate d r x = some r' ∧ Reshaped r r' (plug ctx (branch d c A x (branch d c' B y C)))
      (plug ctx (branch d c' (branch d c A x B) y C)) := by
  obtain ⟨r', heq, hrep, hsame⟩ := rotate_spec h
  exact ⟨r', heq, hrep, items_plug_congr (items_rotate d c c' c' c A B C x y).symm, hsame⟩

theorem RepTree.root_ne {e : Bool} {b : ℕ} {g : Side}
    (h : RepTree r (plug ctx (branch g e (branch d c s a t) b u))) : u.root ≠ some a := by
  intro hu
  have hnd := h.split.2.2.2
  obtain ⟨-, hnd₁⟩ := nodup_cons.mp (nodup_branch.mp hnd)
  obtain ⟨-, -, hn⟩ := nodup_append.mp hnd₁
  exact hn a (mem_items_branch.mpr (Or.inl rfl)) a
    (mem_append_left _ (mem_items_of_root hu)) rfl

end

/-! ## The fix-up -/

section Fix

variable {r : Rbtree} {ctx : List (Frame ℕ)} {d e : Side} {n : ℕ} {t S U Z : Shape ℕ} {z p gp : ℕ}

theorem recolor_spec {U₁ U₂ : Shape ℕ} {u : ℕ}
    (h : RepTree r (plug ctx (branch d false (branch e true t p S) gp (branch d true U₁ u U₂)))) :
    Reshaped r (((r.setRed p false).recolor (some u) false).setRed gp true)
      (plug ctx (branch d false (branch e true t p S) gp (branch d true U₁ u U₂)))
      (plug ctx (branch d true (branch e false t p S) gp (branch d false U₁ u U₂))) := by
  have h₁ : RepTree r (plug (⟨d, false, gp, branch d true U₁ u U₂⟩ :: ctx) (branch e true t p S)) := h
  have k₁ := setRed_reshaped h₁ false
  have h₂ : RepTree (r.setRed p false)
      (plug (⟨d.other, false, gp, branch e false t p S⟩ :: ctx) (branch d true U₁ u U₂)) := by
    rw [plug_far]
    exact k₁.rep
  have k₂ := (setRed_reshaped h₂ false).of_eq (plug_far ..) (plug_far ..)
  exact k₁.trans (k₂.trans (setRed_reshaped k₂.rep true))

theorem outer_spec (h : RepTree r (plug ctx (branch d false (branch d true Z p S) gp U))) :
    ∃ r', rotate d.other ((r.setRed p false).setRed gp true) gp = some r' ∧
      Reshaped r r' (plug ctx (branch d false (branch d true Z p S) gp U))
        (plug ctx (branch d false Z p (branch d true S gp U))) := by
  have h₁ : RepTree r (plug (⟨d, false, gp, U⟩ :: ctx) (branch d true Z p S)) := h
  have k₁ := setRed_reshaped h₁ false
  have k₁' : Reshaped r (r.setRed p false) (plug ctx (branch d false (branch d true Z p S) gp U))
      (plug ctx (branch d false (branch d false Z p S) gp U)) := k₁
  have k₂ := setRed_reshaped k₁'.rep true
  have h₂ := k₂.rep
  rw [← branch_other d false, ← branch_other d true] at h₂
  obtain ⟨r', heq, k₃⟩ := rotate_reshaped h₂
  simp only [branch_other] at k₃
  exact ⟨r', heq, k₁'.trans (k₂.trans k₃)⟩

theorem isRed_uncle (h : RepTree r (plug ctx (branch d false (branch e true t p S) gp U))) :
    r.isRed ((r.nodes gp).child d.other) = U.isRed := by
  rw [h.cell.far]
  have h' : RepTree r (plug (⟨d.other, false, gp, branch e true t p S⟩ :: ctx) U) := by
    rw [plug_far]
    exact h
  exact h'.isRed

theorem fixInsertRound_red (h : RepTree r (plug ctx (branch d false (branch e true t p S) gp U)))
    (hU : Bal U n) (hUr : U.isRed = true) :
    ∃ r' U', fixInsertRound d r z p gp = some (r', gp) ∧ Bal U' (n + 1) ∧
      Reshaped r r' (plug ctx (branch d false (branch e true t p S) gp U))
        (plug ctx (branch d true (branch e false t p S) gp U')) ∧ U'.isRed = false := by
  have hred := isRed_uncle h
  have hfar := h.cell.far
  have hU' := hU.blacken hUr
  obtain ⟨U₁, u, U₂, rfl⟩ := exists_branch_of_isRed hUr d
  rw [blacken_branch] at hU'
  rw [isRed_branch] at hred
  rw [root_branch] at hfar
  refine ⟨_, _, ?_, hU', recolor_spec h, isRed_branch ..⟩
  unfold fixInsertRound
  simp only [hred, if_true]
  rw [hfar]

theorem fixInsertRound_black (hz : t.root = some z) (hred : t.isRed = true) (ht : Bal t n)
    (h : RepTree r (plug ctx (branch d false (branch e true t p S) gp U)))
    (hS : Bal S n) (hSr : S.isRed = false) (hUr : U.isRed = false) :
    ∃ r' z' Z q S', fixInsertRound d r z p gp = some (r', z') ∧ Z.root = some z' ∧
      Reshaped r r' (plug ctx (branch d false (branch e true t p S) gp U))
        (plug ctx (branch d false Z q (branch d true S' gp U))) ∧
      Bal Z n ∧ Bal S' n ∧ S'.isRed = false := by
  have huncle := isRed_uncle h
  rw [hUr] at huncle
  obtain ⟨t₁, z', t₂, rfl⟩ := exists_branch_of_isRed hred d
  rw [root_branch] at hz
  cases hz
  obtain ⟨ht₁, ht₂, htr₁, htr₂⟩ := bal_red.mp ht
  rcases Side.eq_or d e with rfl | rfl
  · -- `z` is on the outside
    have h₁ : RepTree r (plug (⟨e, false, gp, U⟩ :: ctx) (branch e true (branch e true t₁ z t₂) p S)) := h
    have hfar : (r.nodes p).child e.other ≠ some z := by
      rw [h₁.cell.far]
      exact h₁.root_ne
    have h₂ : RepTree r (plug (⟨e, true, p, S⟩ :: ⟨e, false, gp, U⟩ :: ctx) (branch e true t₁ z t₂)) := h
    obtain ⟨r', heq, k⟩ := outer_spec h
    refine ⟨r', z, _, p, S, ?_, root_branch .., k, ht, hS, hSr⟩
    unfold fixInsertRound
    simp only [huncle, Bool.false_eq_true, if_false, if_neg hfar, Option.bind_eq_bind,
      Option.bind_some, h₂.cell.parent, above, heq, Option.pure_def]
  · -- `z` is on the inside
    rw [branch_other d true] at h ⊢
    have h₁ : RepTree r
      (plug (⟨d, false, gp, U⟩ :: ctx) (branch d true S p (branch d true t₁ z t₂))) := h
    have hfar : (r.nodes p).child d.other = some z := by rw [h₁.cell.far, root_branch]
    obtain ⟨r₁, heq₁, k₁⟩ := rotate_reshaped h₁
    have h₂ : RepTree r₁
      (plug (⟨d, true, z, t₂⟩ :: ⟨d, false, gp, U⟩ :: ctx) (branch d true S p t₁)) := k₁.rep
    have h₃ : RepTree r₁
      (plug ctx (branch d false (branch d true (branch d true S p t₁) z t₂) gp U)) := k₁.rep
    obtain ⟨r', heq, k⟩ := outer_spec h₃
    refine ⟨r', p, _, z, t₂, ?_, root_branch .., k₁.trans k, ?_, ht₂, htr₂⟩
    · unfold fixInsertRound
      simp only [huncle, Bool.false_eq_true, if_false, if_pos hfar, heq₁, Option.map_some,
        Option.bind_eq_bind, Option.bind_some, h₂.cell.parent, above, heq, Option.pure_def]
    · exact bal_red.mpr ⟨hS, ht₁, hSr, htr₁⟩

theorem side_eq (h : RepTree r (plug ctx (branch d false (branch e true t p S) gp U))) :
    (if (r.nodes gp).left = some p then Side.left else Side.right) = d := by
  have hcell := h.cell
  cases d with
  | left =>
    have hnear := hcell.near
    rw [root_branch] at hnear
    exact if_pos hnear
  | right =>
    refine if_neg ?_
    show (r.nodes gp).child (Side.right).other ≠ some p
    rw [hcell.far]
    exact h.root_ne

theorem fixInsertLoop_spec : ∀ (m : ℕ) (ctx : List (Frame ℕ)) (r : Rbtree) (t : Shape ℕ) (z n : ℕ),
    ctx.length < m → t.root = some z → t.isRed = true → Bal t n → CtxBal ctx n false →
    RepTree r (plug ctx t) →
      ∃ r' T, fixInsertLoop m r z = some r' ∧ Reshaped r r' (plug ctx t) T ∧ RB T.blacken := by
  intro m
  induction m with
  | zero => intro ctx r t z n hm; cases hm
  | succ m ih =>
    intro ctx r t z n hm hz hred ht hctx h
    obtain ⟨t₁, z', t₂, rfl⟩ := exists_branch_of_isRed hred .left
    rw [root_branch] at hz
    cases hz
    have hcell := h.cell
    unfold fixInsertLoop
    cases ctx with
    | nil =>
      rw [hcell.parent]
      exact ⟨r, _, rfl, Reshaped.refl h, rfl, n + 1, ht.blacken hred⟩
    | cons f ctx =>
      obtain ⟨e, fc, p, S⟩ := f
      have hp : RepTree r (plug ctx (branch e fc (branch .left true t₁ z t₂) p S)) := h
      rw [hcell.parent]
      simp only [above]
      cases fc with
      | false =>
        refine ⟨r, _, ?_, Reshaped.refl h, ?_⟩
        · rw [hp.cell.red]
          rfl
        · have hrb : RB (plug (⟨e, false, p, S⟩ :: ctx) (branch .left true t₁ z t₂)) :=
            CtxBal.plug ⟨hctx.1, (fun hc => by cases hc), hctx.2.2⟩ ht
          rw [blacken_of_not_isRed hrb.1]
          exact hrb
      | true =>
        obtain ⟨hS, hSr, g, ctx', rfl, hg, hU, hctx'⟩ := hctx.above_red rfl
        obtain ⟨d, gc, gp, U⟩ := g
        cases hg
        have hgp : RepTree r
          (plug ctx' (branch d false (branch e true (branch .left true t₁ z t₂) p S) gp U)) := h
        simp only [hp.cell.red, if_true, hp.cell.parent, above, side_eq hgp, Option.bind_eq_bind]
        have hlen : ctx'.length + 2 < m + 1 := hm
        cases hUr : U.isRed with
        | true =>
          obtain ⟨r₁, U', heq, hU', k₁, hUr'⟩ := fixInsertRound_red hgp hU hUr
          obtain ⟨r', T, heq', k, hT⟩ := ih ctx' r₁ _ gp (n + 1) (by omega) (root_branch ..)
            (isRed_branch ..) (bal_red.mpr ⟨bal_black.mpr ⟨ht, hS⟩, hU', isRed_branch .., hUr'⟩)
            hctx' k₁.rep
          refine ⟨r', T, ?_, k₁.trans k, hT⟩
          rw [heq]
          exact heq'
        | false =>
          obtain ⟨r', z', Z, q, S', heq, hz', k, hZ, hS', hSr'⟩ :=
            fixInsertRound_black (root_branch ..) hred ht hgp hS hSr hUr
          have hbal : Bal (branch d false Z q (branch d true S' gp U)) (n + 1) :=
            bal_black.mpr ⟨hZ, bal_red.mpr ⟨hS', hU, hSr', hUr⟩⟩
          have hrb : RB (plug ctx' (branch d false Z q (branch d true S' gp U))) :=
            CtxBal.plug (by rw [isRed_branch]; exact hctx') hbal
          refine ⟨r', _, ?_, k, by rw [blacken_of_not_isRed hrb.1]; exact hrb⟩
          rw [heq]
          -- the next round finds a black parent
          obtain ⟨m, rfl⟩ : ∃ m', m = m' + 1 := ⟨m - 1, by omega⟩
          have hq : RepTree r' (plug (⟨d, false, q, branch d true S' gp U⟩ :: ctx') Z) := k.rep
          obtain ⟨c', Z₁, Z₂, rfl⟩ := exists_branch_of_root hz' .left
          show fixInsertLoop (m + 1) r' z' = some r'
          unfold fixInsertLoop
          rw [hq.cell.parent]
          show (if (r'.nodes q).red then _ else some r') = some r'
          rw [k.rep.cell.red]
          rfl

theorem fixInsert_spec {m : ℕ} (hm : ctx.length < m) (hz : t.root = some z) (hred : t.isRed = true)
    (ht : Bal t n) (hctx : CtxBal ctx n false) (h : RepTree r (plug ctx t)) :
    ∃ r' T, fixInsert m r z = some r' ∧ Reshaped r r' (plug ctx t) T ∧ RB T := by
  obtain ⟨r₁, T, heq, k, hT⟩ := fixInsertLoop_spec m ctx r t z n hm hz hred ht hctx h
  obtain ⟨hrep, hsame⟩ := recolor_root_spec k.rep
  refine ⟨_, _, ?_, k.trans ⟨hrep, items_blacken T, hsame⟩, hT⟩
  unfold fixInsert
  rw [heq]
  rfl

end Fix

/-! ## The place of a key -/

/-- The keys of the nodes in the list increase. -/
def Ordered (r : Rbtree) (l : List ℕ) : Prop :=
  l.Pairwise fun a b => (r.nodes a).key < (r.nodes b).key

variable {r : Rbtree} {c : Bool} {a k : ℕ} {ctx : List (Frame ℕ)}

theorem Ordered.of_same {S l : List ℕ} {r' : Rbtree} (h : Ordered r l) (hs : Same S r r') :
    Ordered r' l := h.imp fun {a b} hab => by rw [(hs a).1, (hs b).1]; exact hab

theorem Ordered.branches {l s : Shape ℕ} (h : Ordered r (Shape.node c l a s).items) :
    Ordered r l.items ∧ Ordered r s.items ∧ (∀ b ∈ l.items, (r.nodes b).key < (r.nodes a).key) ∧
      ∀ b ∈ s.items, (r.nodes a).key < (r.nodes b).key := by
  obtain ⟨h1, h2, h3⟩ := pairwise_append.mp h
  obtain ⟨h4, h5⟩ := pairwise_cons.mp h2
  exact ⟨h1, h5, fun b hb => h3 b hb a mem_cons_self, h4⟩

/-- The context surrounds the place of the key. -/
def Around (r : Rbtree) (k : ℕ) (ctx : List (Frame ℕ)) : Prop :=
  (∀ b ∈ before ctx, (r.nodes b).key < k) ∧ ∀ b ∈ after ctx, k < (r.nodes b).key

theorem Around.left {s : Shape ℕ} (h : Around r k ctx) (ha : k < (r.nodes a).key)
    (hs : ∀ b ∈ s.items, (r.nodes a).key < (r.nodes b).key) :
    Around r k (⟨.left, c, a, s⟩ :: ctx) := by
  refine ⟨fun b hb => h.1 b ?_, fun b hb => ?_⟩
  · simpa [before] using hb
  · have hb' : b = a ∨ b ∈ s.items ∨ b ∈ after ctx := by simpa [after] using hb
    rcases hb' with rfl | hb' | hb'
    · exact ha
    · exact Nat.lt_trans ha (hs b hb')
    · exact h.2 b hb'

theorem Around.right {l : Shape ℕ} (h : Around r k ctx) (ha : (r.nodes a).key < k)
    (hl : ∀ b ∈ l.items, (r.nodes b).key < (r.nodes a).key) :
    Around r k (⟨.right, c, a, l⟩ :: ctx) := by
  refine ⟨fun b hb => ?_, fun b hb => h.2 b ?_⟩
  · have hb' : b ∈ before ctx ∨ b ∈ l.items ∨ b = a := by simpa [before] using hb
    rcases hb' with hb' | hb' | rfl
    · exact h.1 b hb'
    · exact Nat.lt_trans (hl b hb') ha
    · exact ha
  · simpa [after] using hb

theorem insertPlace_spec : ∀ (t : Shape ℕ) (ctx : List (Frame ℕ)) (n : ℕ),
    t.items.length < n → RepTree r (plug ctx t) → Ordered r t.items → Around r k ctx →
      (∃ a ∈ t.items, (r.nodes a).key = k ∧
        insertPlace r k n (above ctx) t.root = some (some a, true)) ∨
      ∃ ctx', plug ctx' .nil = plug ctx t ∧ Around r k ctx' ∧
        insertPlace r k n (above ctx) t.root = some (above ctx', false) := by
  intro t
  induction t with
  | nil =>
    intro ctx n hn _ _ hk
    obtain ⟨m, rfl⟩ : ∃ m, n = m + 1 := ⟨n - 1, by simp only [items, length_nil] at hn; omega⟩
    exact Or.inr ⟨ctx, rfl, hk, rfl⟩
  | node c l a s ihl ihs =>
    intro ctx n hn h hord hk
    have hlen : (Shape.node c l a s).items.length = l.items.length + (s.items.length + 1) := by
      simp [items]
    obtain ⟨m, rfl⟩ : ∃ m, n = m + 1 := ⟨n - 1, by omega⟩
    obtain ⟨hl, hs, hla, has⟩ := hord.branches
    have hcell : Cell (r.nodes a) .left (above ctx) l.root s.root c := h.split.2.2.1.1
    have hright : (r.nodes a).right = s.root := hcell.far
    show (∃ b ∈ _, _ ∧ insertPlace r k (m + 1) (above ctx) (some a) = _) ∨
      ∃ ctx', _ ∧ _ ∧ insertPlace r k (m + 1) (above ctx) (some a) = _
    unfold insertPlace
    by_cases hka : k = (r.nodes a).key
    · rw [if_pos hka]
      exact Or.inl ⟨a, mem_append_right _ mem_cons_self, hka.symm, rfl⟩
    rw [if_neg hka]
    by_cases hlt : k < (r.nodes a).key
    · rw [if_pos hlt, show (r.nodes a).left = l.root from hcell.near]
      rcases ihl (⟨.left, c, a, s⟩ :: ctx) m (by omega) h hl (hk.left hlt has) with
        ⟨b, hb, hkb, heq⟩ | hnew
      · exact Or.inl ⟨b, mem_append_left _ hb, hkb, heq⟩
      · exact Or.inr hnew
    · rw [if_neg hlt, hright]
      rcases ihs (⟨.right, c, a, l⟩ :: ctx) m (by omega) h hs (hk.right (by omega) hla) with
        ⟨b, hb, hkb, heq⟩ | hnew
      · exact Or.inl ⟨b, mem_append_right _ (mem_cons_of_mem _ hb), hkb, heq⟩
      · exact Or.inr hnew

/-- The new node as `rb_insert` writes it. -/
def newNode (y : Option ℕ) (n : RbtreeNode) : RbtreeNode :=
  { n with parent := y, left := none, right := none, red := true }

theorem attach_spec {z : ℕ} (h : RepTree r (plug ctx .nil)) (hz : z ∉ (plug ctx .nil).items)
    (hk : Around r (r.nodes z).key ctx) {r₁ r₂ : Rbtree} (hr₁ : r₁ = r.modify z (newNode (above ctx)))
    (hr₂ : r₂ = match above ctx with
      | none => { r₁ with root := some z }
      | some y => r₁.setChild y
          (if (r₁.nodes z).key < (r₁.nodes y).key then .left else .right) (some z)) :
    RepTree r₂ (plug ctx (branch .left true .nil z .nil)) ∧
      Same (z :: (plug ctx .nil).items) r r₂ := by
  obtain ⟨hroot, hctx, -, hnd⟩ := h.split
  have hnd : (ctxItems ctx).Nodup := hnd
  have hmem : ∀ b, b ∈ (plug ctx .nil).items ↔ b ∈ ctxItems ctx := fun b =>
    (items_plug_perm ctx .nil).mem_iff
  rw [hmem] at hz
  have hcell₁ : Cell (r₁.nodes z) .left (above ctx) none none true := by
    rw [hr₁, modify_self]
    exact ⟨rfl, rfl, rfl, rfl⟩
  have hctx₁ : RepCtx r₁.nodes ctx none := hctx.congr fun b hb => by
    rw [hr₁]
    exact modify_of_ne r _ (ne_of_mem_of_not_mem hb hz)
  have s₁ : Same (z :: (plug ctx .nil).items) r r₁ := by
    rw [hr₁]
    exact modify_same r mem_cons_self ⟨rfl, rfl⟩
  have hnd' : ((branch .left true .nil z .nil).items ++ ctxItems ctx).Nodup :=
    nodup_branch.mpr (nodup_cons.mpr ⟨hz, hnd⟩)
  cases ctx with
  | nil =>
    subst hr₂
    exact ⟨repTree_plug rfl trivial ⟨hcell₁, trivial, trivial⟩ hnd', s₁⟩
  | cons f ctx =>
    obtain ⟨d, c, y, s⟩ := f
    have hyz : y ≠ z := fun e => hz (e ▸ mem_cons_self)
    have hy₁ : r₁.nodes y = r.nodes y := by rw [hr₁]; exact modify_of_ne r _ hyz
    have hz₁ : (r₁.nodes z).key = (r.nodes z).key := by rw [hr₁, modify_self]; rfl
    have hside : (if (r₁.nodes z).key < (r₁.nodes y).key then Side.left else .right) = d := by
      rw [hy₁, hz₁]
      cases d with
      | left => exact if_pos (hk.2 y (by simp [after]))
      | right => exact if_neg (Nat.lt_asymm (hk.1 y (by simp [before])))
    have hr₂' : r₂ = r₁.setChild y d (some z) := by
      rw [hr₂]
      simp only [above, hside]
    rw [hr₂']
    have hzy : (r₁.setChild y d (some z)).nodes z = r₁.nodes z := modify_of_ne r₁ _ (Ne.symm hyz)
    refine ⟨repTree_plug ?_ (hctx₁.setChild hnd (some z)) ⟨?_, trivial, trivial⟩ hnd', ?_⟩
    · rw [hr₁]
      exact hroot
    · rw [hzy]
      exact hcell₁
    · refine s₁.trans (setChild_same r₁ (mem_cons_of_mem _ ?_) d (some z))
      rw [hmem]
      exact mem_cons_self

theorem rbInsert_spec {T : Shape ℕ} {z n : ℕ} (h : RepTree r T) (hord : Ordered r T.items)
    (hrb : RB T) (hz : z ∉ T.items) (hn : T.items.length < n) :
    (∃ a ∈ T.items, (r.nodes a).key = (r.nodes z).key ∧ rbInsert n r z = some (false, r)) ∨
      (∀ a ∈ T.items, (r.nodes a).key ≠ (r.nodes z).key) ∧ ∃ r' T', rbInsert n r z = some (true, r') ∧
        RepTree r' T' ∧ Ordered r' T'.items ∧ RB T' ∧ T'.items.Perm (z :: T.items) ∧
        Same (z :: T.items) r r' := by
  have h₀ : RepTree r (plug [] T) := h
  have hk₀ : Around r (r.nodes z).key [] := ⟨by simp [before], by simp [after]⟩
  rcases insertPlace_spec T [] n hn h₀ hord hk₀ with ⟨a, ha, hka, heq⟩ | ⟨ctx, hplug, hk, heq⟩
  · refine Or.inl ⟨a, ha, hka, ?_⟩
    unfold rbInsert
    rw [h.root, show (none : Option ℕ) = above ([] : List (Frame ℕ)) from rfl, heq]
    rfl
  · have hplug : plug ctx .nil = T := hplug
    have hitems : T.items = before ctx ++ after ctx := by
      rw [← hplug, items_plug]
      rfl
    have hkeys : ∀ a ∈ T.items, (r.nodes a).key ≠ (r.nodes z).key := by
      intro a ha
      rw [hitems, mem_append] at ha
      rcases ha with ha | ha
      · exact Nat.ne_of_lt (hk.1 a ha)
      · exact Nat.ne_of_gt (hk.2 a ha)
    refine Or.inr ⟨hkeys, ?_⟩
    obtain ⟨m, hm, hctx⟩ := of_plug (t := Shape.nil) (hplug ▸ hrb)
    cases hm
    obtain ⟨hrep₂, s₂⟩ := attach_spec (hplug ▸ h) (hplug ▸ hz) hk rfl rfl
    set r₁ := r.modify z (newNode (above ctx)) with hr₁
    have hlen : ctx.length < n := by
      have h1 := length_le_ctxItems ctx
      have h2 : T.items.length = (ctxItems ctx).length := by
        rw [← hplug, (items_plug_perm ctx _).length_eq]
        rfl
      omega
    obtain ⟨r', T', hfix, k, hT'⟩ := fixInsert_spec hlen (root_branch ..) (isRed_branch ..)
      (bal_red.mpr ⟨.nil, .nil, rfl, rfl⟩) hctx hrep₂
    have hitems' : T'.items = before ctx ++ z :: after ctx := by
      rw [k.items, items_plug]
      rfl
    rw [hplug] at s₂
    have hs : Same (z :: T.items) r r' := by
      refine s₂.trans (k.same.mono fun b hb => ?_)
      rw [← k.items, hitems', mem_append, mem_cons] at hb
      rw [mem_cons, hitems, mem_append]
      tauto
    refine ⟨r', T', ?_, k.rep, ?_, hT', ?_, hs⟩
    · unfold rbInsert
      rw [h.root, show (none : Option ℕ) = above ([] : List (Frame ℕ)) from rfl,
        show T.root = (T : Shape ℕ).root from rfl, heq]
      simp only [Option.bind_eq_bind, Option.bind_some, Bool.false_eq_true, if_false, Option.pure_def]
      exact congrArg (fun o => o.bind fun r => some (true, r)) hfix
    · refine Ordered.of_same ?_ hs
      rw [hitems']
      rw [hitems] at hord
      obtain ⟨h1, h2, h3⟩ := pairwise_append.mp hord
      refine pairwise_append.mpr ⟨h1, pairwise_cons.mpr ⟨hk.2, h2⟩, fun a ha b hb => ?_⟩
      rcases mem_cons.mp hb with rfl | hb
      · exact hk.1 a ha
      · exact h3 a ha b hb
    · rw [hitems', hitems]
      exact perm_middle

end LykOS.Rbtree
