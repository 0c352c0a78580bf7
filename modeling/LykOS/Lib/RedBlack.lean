import Mathlib.Data.List.Perm.Basic

/-!
# Red-black trees with a hole

Binary trees with a colour at each node, and their contexts: the path from a subtree up to the root. Both
are written with a `Side`, so that a statement covers its mirror image. `Bal t n` says that the tree has no
red node with a red child and `n` black nodes on each path; `CtxBal ctx n c` says what a context needs of
the tree in its hole (`CtxBal.plug`, `of_plug`).
-/

namespace RedBlack

open List

inductive Side
  | left
  | right
  deriving DecidableEq, Repr

def Side.other : Side → Side
  | left => right
  | right => left

@[simp] theorem Side.other_other (d : Side) : d.other.other = d := by cases d <;> rfl

theorem Side.eq_or (d e : Side) : e = d ∨ e = d.other := by cases d <;> cases e <;> decide

/-- A binary tree with a colour and an item at each node. -/
inductive Shape (α : Type*)
  | nil
  | node (red : Bool) (l : Shape α) (a : α) (r : Shape α)

/-- One step of the path to a subtree: the side it is on, and the rest of the node above. -/
structure Frame (α : Type*) where
  side : Side
  red : Bool
  item : α
  sibling : Shape α

variable {α : Type*}

namespace Shape

/-- A node whose child on side `d` is `near`. -/
def branch (d : Side) (red : Bool) (near : Shape α) (a : α) (far : Shape α) : Shape α :=
  match d with
  | .left => node red near a far
  | .right => node red far a near

theorem branch_other (d : Side) (c : Bool) (s t : Shape α) (a : α) :
    branch d.other c s a t = branch d c t a s := by
  cases d <;> rfl

theorem exists_branch (d : Side) (c : Bool) (l r : Shape α) (a : α) :
    ∃ near far, node c l a r = branch d c near a far := by
  cases d
  · exact ⟨l, r, rfl⟩
  · exact ⟨r, l, rfl⟩

def root : Shape α → Option α
  | nil => none
  | node _ _ a _ => some a

def isRed : Shape α → Bool
  | nil => false
  | node c _ _ _ => c

def items : Shape α → List α
  | nil => []
  | node _ l a r => l.items ++ a :: r.items

def blacken : Shape α → Shape α
  | nil => nil
  | node _ l a r => node false l a r

@[simp] theorem root_branch (d : Side) (c : Bool) (s t : Shape α) (a : α) :
    (branch d c s a t).root = some a := by
  cases d <;> rfl

@[simp] theorem isRed_branch (d : Side) (c : Bool) (s t : Shape α) (a : α) :
    (branch d c s a t).isRed = c := by
  cases d <;> rfl

@[simp] theorem blacken_branch (d : Side) (c : Bool) (s t : Shape α) (a : α) :
    (branch d c s a t).blacken = branch d false s a t := by
  cases d <;> rfl

@[simp] theorem items_blacken (t : Shape α) : t.blacken.items = t.items := by cases t <;> rfl

variable {s t : Shape α} {a : α} {n : ℕ} {d : Side}

theorem root_eq_none (h : t.root = none) : t = nil := by
  cases t with
  | nil => rfl
  | node => cases h

theorem mem_items_of_root (h : t.root = some a) : a ∈ t.items := by
  cases t with
  | nil => cases h
  | node c l b r =>
    cases h
    exact mem_append_right _ mem_cons_self

theorem mem_items_branch {c : Bool} {b : α} :
    b ∈ (branch d c s a t).items ↔ b = a ∨ b ∈ s.items ∨ b ∈ t.items := by
  cases d
  · show b ∈ s.items ++ a :: t.items ↔ _
    rw [mem_append, mem_cons]
    tauto
  · show b ∈ t.items ++ a :: s.items ↔ _
    rw [mem_append, mem_cons]
    tauto

theorem items_branch_perm (d : Side) (c : Bool) (s t : Shape α) (a : α) :
    (branch d c s a t).items.Perm (a :: (s.items ++ t.items)) := by
  cases d
  · exact perm_middle
  · exact perm_middle.trans (perm_append_comm.cons a)

theorem items_rotate (d : Side) (c c' e e' : Bool) (A B C : Shape α) (x y : α) :
    (branch d c A x (branch d c' B y C)).items = (branch d e (branch d e' A x B) y C).items := by
  cases d <;> simp [branch, items]

theorem items_recolor (d : Side) (c c' : Bool) (s t : Shape α) (a : α) :
    (branch d c s a t).items = (branch d c' s a t).items := by
  cases d <;> rfl

/-! ## Balance -/

inductive Bal : Shape α → ℕ → Prop
  | nil : Bal nil 0
  | red {l r : Shape α} {a : α} {n : ℕ} : Bal l n → Bal r n → l.isRed = false → r.isRed = false →
      Bal (node true l a r) n
  | black {l r : Shape α} {a : α} {n : ℕ} : Bal l n → Bal r n → Bal (node false l a r) (n + 1)

theorem bal_red :
    Bal (branch d true s a t) n ↔ Bal s n ∧ Bal t n ∧ s.isRed = false ∧ t.isRed = false := by
  constructor
  · intro h
    cases d
    · cases h with
      | red hl hr hcl hcr => exact ⟨hl, hr, hcl, hcr⟩
    · cases h with
      | red hl hr hcl hcr => exact ⟨hr, hl, hcr, hcl⟩
  · rintro ⟨hs, ht, hcs, hct⟩
    cases d
    · exact .red hs ht hcs hct
    · exact .red ht hs hct hcs

theorem bal_black : Bal (branch d false s a t) (n + 1) ↔ Bal s n ∧ Bal t n := by
  constructor
  · intro h
    cases d
    · cases h with
      | black hl hr => exact ⟨hl, hr⟩
    · cases h with
      | black hl hr => exact ⟨hr, hl⟩
  · rintro ⟨hs, ht⟩
    cases d
    · exact .black hs ht
    · exact .black ht hs

theorem Bal.blacken (h : Bal t n) (hr : t.isRed = true) : Bal t.blacken (n + 1) := by
  cases h with
  | nil => cases hr
  | red hl hr _ _ => exact .black hl hr
  | black => cases hr

theorem Bal.exists_branch (h : Bal t (n + 1)) (d : Side) : ∃ s a u, t = branch d t.isRed s a u := by
  cases t with
  | nil => cases h
  | node c l a r =>
    obtain ⟨s, u, e⟩ := Shape.exists_branch d c l r a
    exact ⟨s, a, u, e⟩

theorem exists_branch_of_isRed (h : t.isRed = true) (d : Side) :
    ∃ s a u, t = branch d true s a u := by
  cases t with
  | nil => cases h
  | node c l a r =>
    cases h
    obtain ⟨s, u, e⟩ := Shape.exists_branch d true l r a
    exact ⟨s, a, u, e⟩

theorem exists_branch_of_root (h : t.root = some a) (d : Side) : ∃ c s u, t = branch d c s a u := by
  cases t with
  | nil => cases h
  | node c l b r =>
    cases h
    obtain ⟨s, u, e⟩ := Shape.exists_branch d c l r a
    exact ⟨c, s, u, e⟩

theorem blacken_of_not_isRed (h : t.isRed = false) : t.blacken = t := by
  cases t with
  | nil => rfl
  | node c l a r =>
    cases h
    rfl

/-- Black root and balanced. -/
def RB (t : Shape α) : Prop := t.isRed = false ∧ ∃ n, Bal t n

end Shape

/-! ## Contexts -/

open Shape

namespace Frame

def fill (f : Frame α) (t : Shape α) : Shape α := branch f.side f.red t f.item f.sibling

end Frame

/-- The tree in a context; the first frame is the innermost. -/
def plug : List (Frame α) → Shape α → Shape α
  | [], t => t
  | f :: ctx, t => plug ctx (f.fill t)

def above : List (Frame α) → Option α
  | [] => none
  | f :: _ => some f.item

/-- The root of the tree, if the root of the tree in the hole is `hole`. -/
def rootOf : List (Frame α) → Option α → Option α
  | [], hole => hole
  | f :: ctx, _ => rootOf ctx (some f.item)

def ctxItems : List (Frame α) → List α
  | [] => []
  | f :: ctx => f.item :: (f.sibling.items ++ ctxItems ctx)

def before : List (Frame α) → List α
  | [] => []
  | f :: ctx => before ctx ++ if f.side = .left then [] else f.sibling.items ++ [f.item]

def after : List (Frame α) → List α
  | [] => []
  | f :: ctx => (if f.side = .left then f.item :: f.sibling.items else []) ++ after ctx

theorem plug_append (ctx ctx' : List (Frame α)) (t : Shape α) :
    plug (ctx ++ ctx') t = plug ctx' (plug ctx t) := by
  induction ctx generalizing t with
  | nil => rfl
  | cons f ctx ih => exact ih _

theorem root_plug (ctx : List (Frame α)) (t : Shape α) : (plug ctx t).root = rootOf ctx t.root := by
  induction ctx generalizing t with
  | nil => rfl
  | cons f ctx ih =>
    show (plug ctx (f.fill t)).root = _
    rw [ih]
    unfold Frame.fill
    rw [root_branch]
    rfl

theorem items_plug (ctx : List (Frame α)) (t : Shape α) :
    (plug ctx t).items = before ctx ++ (t.items ++ after ctx) := by
  induction ctx generalizing t with
  | nil => simp [plug, before, after]
  | cons f ctx ih =>
    obtain ⟨d, c, a, s⟩ := f
    show (plug ctx _).items = _
    rw [ih]
    cases d <;> simp [Frame.fill, branch, items, before, after]

theorem items_plug_perm (ctx : List (Frame α)) (t : Shape α) :
    (plug ctx t).items.Perm (t.items ++ ctxItems ctx) := by
  induction ctx generalizing t with
  | nil =>
    show t.items.Perm (t.items ++ [])
    rw [List.append_nil]
  | cons f ctx ih =>
    refine (ih (f.fill t)).trans (((items_branch_perm _ _ _ _ _).append_right _).trans ?_)
    show (f.item :: (t.items ++ f.sibling.items ++ ctxItems ctx)).Perm _
    rw [append_assoc]
    exact perm_middle.symm

theorem length_le_ctxItems (ctx : List (Frame α)) : ctx.length ≤ (ctxItems ctx).length := by
  induction ctx with
  | nil => exact Nat.le_refl 0
  | cons f ctx ih =>
    simp only [ctxItems, length_cons, length_append]
    omega

variable {ctx : List (Frame α)} {t : Shape α} {n : ℕ} {c : Bool} {a : α}

theorem exists_plug_of_mem (h : a ∈ t.items) : ∃ ctx c l r, t = plug ctx (node c l a r) := by
  induction t with
  | nil => cases h
  | node c l b r ihl ihr =>
    rcases mem_append.mp h with h | h
    · obtain ⟨ctx, c', l', r', rfl⟩ := ihl h
      exact ⟨ctx ++ [⟨.left, c, b, r⟩], c', l', r', by rw [plug_append]; rfl⟩
    · rcases mem_cons.mp h with rfl | h
      · exact ⟨[], c, l, r, rfl⟩
      · obtain ⟨ctx, c', l', r', rfl⟩ := ihr h
        exact ⟨ctx ++ [⟨.right, c, b, l⟩], c', l', r', by rw [plug_append]; rfl⟩

/-- What the context needs of the tree in its hole: `n` black nodes on each path, and a black root
unless `c`. -/
def CtxBal : List (Frame α) → ℕ → Bool → Prop
  | [], _, c => c = false
  | f :: ctx, n, c => Bal f.sibling n ∧ (f.red = true → c = false ∧ f.sibling.isRed = false) ∧
      CtxBal ctx (if f.red then n else n + 1) f.red

theorem CtxBal.weaken (h : CtxBal ctx n c) : CtxBal ctx n false := by
  cases ctx with
  | nil => rfl
  | cons f ctx => exact ⟨h.1, fun hr => ⟨rfl, (h.2.1 hr).2⟩, h.2.2⟩

theorem CtxBal.plug (h : CtxBal ctx n t.isRed) (ht : Bal t n) : RB (plug ctx t) := by
  induction ctx generalizing t n with
  | nil => exact ⟨h, n, ht⟩
  | cons f ctx ih =>
    obtain ⟨d, c, a, s⟩ := f
    obtain ⟨hs, hc, hctx⟩ := h
    cases c with
    | true =>
      obtain ⟨h1, h2⟩ := hc rfl
      exact ih (by rw [Frame.fill, isRed_branch]; exact hctx) (bal_red.mpr ⟨ht, hs, h1, h2⟩)
    | false => exact ih (by rw [Frame.fill, isRed_branch]; exact hctx) (bal_black.mpr ⟨ht, hs⟩)

theorem of_plug (h : RB (RedBlack.plug ctx t)) : ∃ n, Bal t n ∧ CtxBal ctx n t.isRed := by
  induction ctx generalizing t with
  | nil =>
    obtain ⟨hr, n, hb⟩ := h
    exact ⟨n, hb, hr⟩
  | cons f ctx ih =>
    obtain ⟨d, c, a, s⟩ := f
    obtain ⟨n, hb, hctx⟩ := ih h
    unfold Frame.fill at hb hctx
    rw [isRed_branch] at hctx
    cases c with
    | true =>
      obtain ⟨h1, h2, h3, h4⟩ := bal_red.mp hb
      exact ⟨n, h1, h2, fun _ => ⟨h3, h4⟩, hctx⟩
    | false =>
      cases n with
      | zero => cases d <;> cases hb
      | succ n =>
        obtain ⟨h1, h2⟩ := bal_black.mp hb
        exact ⟨n, h1, h2, (fun hc => by cases hc), hctx⟩

theorem CtxBal.replace {ctx' : List (Frame α)} {d : Side} {e : Bool} {b : α} {s : Shape α}
    (h : CtxBal (ctx ++ ⟨d, c, a, s⟩ :: ctx') n e) : CtxBal (ctx ++ ⟨d, c, b, s⟩ :: ctx') n e := by
  induction ctx generalizing n e with
  | nil => exact h
  | cons f ctx ih => exact ⟨h.1, h.2.1, ih h.2.2⟩

/-- A node with an empty child gives its place to the other child. If it was black, its paths lack a
black node. -/
theorem of_plug_branch_nil {d : Side} (h : RB (RedBlack.plug ctx (branch d c nil a t))) :
    ∃ n, Bal t n ∧ if c then t.isRed = false ∧ CtxBal ctx n false else CtxBal ctx (n + 1) false := by
  obtain ⟨n, hb, hctx⟩ := of_plug h
  rw [isRed_branch] at hctx
  cases c with
  | true =>
    obtain ⟨-, ht, -, hr⟩ := bal_red.mp hb
    exact ⟨n, ht, hr, hctx.weaken⟩
  | false =>
    cases n with
    | zero => cases d <;> cases hb
    | succ n => exact ⟨n, (bal_black.mp hb).2, hctx⟩

theorem CtxBal.above_red {f : Frame α} (h : CtxBal (f :: ctx) n c) (hr : f.red = true) :
    Bal f.sibling n ∧ f.sibling.isRed = false ∧ ∃ g ctx', ctx = g :: ctx' ∧ g.red = false ∧
      Bal g.sibling n ∧ CtxBal ctx' (n + 1) false := by
  obtain ⟨hs, hc, hctx⟩ := h
  rw [hr] at hctx
  refine ⟨hs, (hc hr).2, ?_⟩
  cases ctx with
  | nil => cases hctx
  | cons g ctx =>
    obtain ⟨hgs, hgc, hctx⟩ := hctx
    have hg : g.red = false := by
      by_contra hne
      exact absurd (hgc (eq_true_of_ne_false hne)).1 (by decide)
    rw [hg] at hctx
    exact ⟨g, ctx, rfl, hg, hgs, hctx⟩

end RedBlack
