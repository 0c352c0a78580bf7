import LykOS.Lib.Rbtree.Insert
import LykOS.Lib.Rbtree.Unlink

/-!
# Removal

After the first part of `rb_remove` (`unlink_spec`) the tree is at a position with, if the node that left
its place was black, one black node too few on the paths through it. The fix-up moves the lack up or mends
it (`fixRemoveLoop_spec`). The sibling of such a position is never null, so no round follows a null pointer.
-/

namespace LykOS.Rbtree

open RedBlack RedBlack.Shape
open List hiding after

/-! ## The fix-up -/

section Fix

variable {r : Rbtree} {ctx : List (Frame ℕ)} {d : Side} {e : Bool} {m : ℕ} {X B C : Shape ℕ} {p w : ℕ}

theorem fixRemoveEnd_spec {C₁ C₂ : Shape ℕ} {v : ℕ}
    (h : RepTree r (plug ctx (branch d e X p (branch d false B w (branch d true C₁ v C₂))))) :
    ∃ r', fixRemoveEnd d r p (some w) = some r' ∧
      Reshaped r r' (plug ctx (branch d e X p (branch d false B w (branch d true C₁ v C₂))))
        (plug ctx (branch d e (branch d false X p B) w (branch d false C₁ v C₂))) := by
  have h₀ := h
  rw [← plug_far] at h₀
  have k₁ := (setRed_reshaped h₀ e).of_eq (plug_far ..) (plug_far ..)
  have k₂ := setRed_reshaped k₁.rep false
  have h₂ := k₂.rep
  rw [← plug_far, ← plug_far] at h₂
  have k₃ := (setRed_reshaped h₂ false).of_eq ((plug_far ..).trans (plug_far ..))
    ((plug_far ..).trans (plug_far ..))
  obtain ⟨r', heq, k₄⟩ := rotate_reshaped k₃.rep
  have hfar : (((r.setRed w e).setRed p false).nodes w).child d.other = some v := by
    have h₃ := k₂.rep
    rw [← plug_far] at h₃
    rw [h₃.cell.far, root_branch]
  refine ⟨r', ?_, k₁.trans (k₂.trans (k₃.trans k₄))⟩
  unfold fixRemoveEnd
  simp only [h.cell.red, recolor]
  rw [hfar]
  exact heq

theorem isRed_children (h : RepTree r (plug ctx (branch d e B w C))) :
    r.isRed ((r.nodes w).child d) = B.isRed ∧ r.isRed ((r.nodes w).child d.other) = C.isRed ∧
      (¬ r.isRed (r.nodes w).left ∧ ¬ r.isRed (r.nodes w).right ↔
        B.isRed = false ∧ C.isRed = false) := by
  have hB : RepTree r (plug (⟨d, e, w, C⟩ :: ctx) B) := h
  have hC := h
  rw [← plug_far] at hC
  have h1 : r.isRed ((r.nodes w).child d) = B.isRed := by rw [h.cell.near, hB.isRed]
  have h2 : r.isRed ((r.nodes w).child d.other) = C.isRed := by rw [h.cell.far, hC.isRed]
  refine ⟨h1, h2, ?_⟩
  rw [Bool.not_eq_true, Bool.not_eq_true]
  cases d with
  | left => exact and_congr (by rw [← h1]; rfl) (by rw [← h2]; rfl)
  | right => exact and_comm.trans (and_congr (by rw [← h1]; rfl) (by rw [← h2]; rfl))

/-- One black node too few on the paths through `X`, which is mended when `X` is red. -/
def Lacks (X : Shape ℕ) (m : ℕ) : Prop := if X.isRed then Bal X.blacken (m + 1) else Bal X m

theorem fixRemoveBlack_spec (hX : Bal X m) (hB : Bal B m) (hC : Bal C m)
    (hctx : CtxBal ctx (if e then m + 1 else m + 2) e)
    (h : RepTree r (plug ctx (branch d e X p (branch d false B w C)))) :
    ∃ r' up T, fixRemoveBlack d r p w = some (r', up) ∧
      Reshaped r r' (plug ctx (branch d e X p (branch d false B w C))) (plug ctx T) ∧
      (up = false → RB (plug ctx T)) ∧
      (up = true → T.root = some p ∧ T.isRed = e ∧
        ∃ m', Lacks T m' ∧ CtxBal ctx (m' + 1) false) := by
  have hw := h
  rw [← plug_far] at hw
  obtain ⟨hnear, hfar, hboth⟩ := isRed_children hw
  unfold fixRemoveBlack
  by_cases hblack : B.isRed = false ∧ C.isRed = false
  · -- the sibling becomes red and the lack moves up
    have k := (setRed_reshaped hw true).of_eq (plug_far ..) (plug_far ..)
    refine ⟨_, true, _, if_pos (hboth.mpr hblack), k, (fun hc => by cases hc), fun _ => ?_⟩
    have hS : Bal (branch d true B w C) m := bal_red.mpr ⟨hB, hC, hblack.1, hblack.2⟩
    refine ⟨root_branch .., isRed_branch .., ?_⟩
    cases e with
    | true =>
      refine ⟨m, ?_, hctx.weaken⟩
      unfold Lacks
      rw [isRed_branch, if_pos rfl, blacken_branch]
      exact bal_black.mpr ⟨hX, hS⟩
    | false =>
      refine ⟨m + 1, ?_, hctx⟩
      unfold Lacks
      rw [isRed_branch, if_neg (by decide)]
      exact bal_black.mpr ⟨hX, hS⟩
  · rw [if_neg (mt hboth.mp hblack)]
    -- with the far child red, one more rotation mends the tree
    have hlast : ∀ {r₁ : Rbtree} {B C₁ C₂ : Shape ℕ} {w v : ℕ}, Bal B m → Bal C₁ m → Bal C₂ m →
        RepTree r₁ (plug ctx (branch d e X p (branch d false B w (branch d true C₁ v C₂)))) →
        ∃ r', fixRemoveEnd d r₁ p (some w) = some r' ∧
          Reshaped r₁ r' (plug ctx (branch d e X p (branch d false B w (branch d true C₁ v C₂))))
            (plug ctx (branch d e (branch d false X p B) w (branch d false C₁ v C₂))) ∧
          RB (plug ctx (branch d e (branch d false X p B) w (branch d false C₁ v C₂))) := by
      intro r₁ B C₁ C₂ w v hB hC₁ hC₂ h₁
      obtain ⟨r', heq, k⟩ := fixRemoveEnd_spec h₁
      have h1 : Bal (branch d false X p B) (m + 1) := bal_black.mpr ⟨hX, hB⟩
      have h2 : Bal (branch d false C₁ v C₂) (m + 1) := bal_black.mpr ⟨hC₁, hC₂⟩
      refine ⟨r', heq, k, ?_⟩
      cases e with
      | true =>
        exact CtxBal.plug (by rw [isRed_branch]; exact hctx)
          (bal_red.mpr ⟨h1, h2, isRed_branch .., isRed_branch ..⟩)
      | false => exact CtxBal.plug (by rw [isRed_branch]; exact hctx) (bal_black.mpr ⟨h1, h2⟩)
    cases hCr : C.isRed with
    | true =>
      obtain ⟨C₁, v, C₂, rfl⟩ := exists_branch_of_isRed hCr d
      obtain ⟨hC₁, hC₂, -, -⟩ := bal_red.mp hC
      obtain ⟨r', heq, k, hrb⟩ := hlast hB hC₁ hC₂ h
      refine ⟨r', false, _, ?_, k, fun _ => hrb, (fun hc => by cases hc)⟩
      simp only [hfar, hCr, not_true_eq_false, if_false, Option.bind_eq_bind, Option.bind_some, heq,
        Option.pure_def]
    | false =>
      -- the near child is red: rotate it to the far side first
      have hBr : B.isRed = true := by
        by_contra hne
        exact hblack ⟨eq_false_of_ne_true hne, hCr⟩
      obtain ⟨B₁, b, B₂, rfl⟩ := exists_branch_of_isRed hBr d
      obtain ⟨hB₁, hB₂, hBr₁, hBr₂⟩ := bal_red.mp hB
      have hb : RepTree r (plug (⟨d, false, w, C⟩ :: ⟨d.other, e, p, X⟩ :: ctx)
        (branch d true B₁ b B₂)) := hw
      have k₁ := setRed_reshaped hb false
      have k₁' : Reshaped r (r.setRed b false) (plug ctx (branch d e X p
          (branch d false (branch d true B₁ b B₂) w C)))
          (plug (⟨d.other, e, p, X⟩ :: ctx) (branch d false (branch d false B₁ b B₂) w C)) :=
        k₁.of_eq (plug_far ..) rfl
      have k₂ := setRed_reshaped k₁'.rep true
      have h₂ := k₂.rep
      rw [← branch_other d false, ← branch_other d true] at h₂
      obtain ⟨r₃, heq₃, k₃⟩ := rotate_reshaped h₂
      simp only [branch_other] at k₃
      have k₃' := k₃.of_eq rfl (plug_far ..)
      obtain ⟨r', heq, k, hrb⟩ := hlast hB₁ hB₂ hC k₃'.rep
      have hchild : (r.nodes w).child d = some b := by rw [hw.cell.near, root_branch]
      have hnew : (r₃.nodes p).child d.other = some b := by rw [k₃'.rep.cell.far, root_branch]
      refine ⟨r', false, _, ?_, k₁'.trans (k₂.trans (k₃'.trans k)), fun _ => hrb,
        (fun hc => by cases hc)⟩
      simp only [hfar, hCr, Bool.false_eq_true, not_false_eq_true, if_true, hchild, recolor, heq₃,
        Option.bind_eq_bind, Option.bind_some, hnew, heq, Option.pure_def]

theorem fixRemoveRound_spec {S : Shape ℕ} (hX : Bal X m)
    (hctx : CtxBal (⟨d, e, p, S⟩ :: ctx) (m + 1) false)
    (h : RepTree r (plug (⟨d, e, p, S⟩ :: ctx) X)) :
    ∃ r' up ctx' T, fixRemoveRound d r p = some (r', up) ∧
      Reshaped r r' (plug (⟨d, e, p, S⟩ :: ctx) X) (plug ctx' T) ∧
      (up = false → RB (plug ctx' T)) ∧
      (up = true → T.root = some p ∧ (T.isRed = true ∨ ctx' = ctx) ∧
        ∃ m', Lacks T m' ∧ CtxBal ctx' (m' + 1) false) := by
  obtain ⟨hS, hred, hctx⟩ := hctx
  have hSm : Bal S (m + 1) := hS
  obtain ⟨B, w, C, hbranch⟩ := hSm.exists_branch d
  have hp : RepTree r (plug ctx (branch d e X p S)) := h
  have hfar : (r.nodes p).child d.other = some w := by rw [hp.cell.far, hbranch, root_branch]
  have hw := hp
  rw [← plug_far, hbranch] at hw
  unfold fixRemoveRound
  simp only [hfar, Option.bind_eq_bind, Option.bind_some, hw.cell.red]
  cases hSr : S.isRed with
  | false =>
    rw [hSr] at hbranch
    subst hbranch
    obtain ⟨hB, hC⟩ := bal_black.mp hSm
    obtain ⟨r', up, T, heq, k, hdone, hup⟩ := fixRemoveBlack_spec hX hB hC hctx hp
    refine ⟨r', up, ctx, T, ?_, k, hdone, fun hu => ?_⟩
    · simp only [Bool.false_eq_true, if_false]
      exact heq
    · obtain ⟨h1, -, h3⟩ := hup hu
      exact ⟨h1, Or.inr rfl, h3⟩
  | true =>
    -- a red sibling has a black parent and black children, and is rotated away
    have he : e = false := by
      by_contra hne
      have := (hred (eq_true_of_ne_false hne)).2
      rw [hSr] at this
      cases this
    rw [hSr] at hbranch
    subst he hbranch
    obtain ⟨hB, hC, hBr, -⟩ := bal_red.mp hSm
    obtain ⟨B₁, b, B₂, hBb⟩ := hB.exists_branch d
    rw [hBr] at hBb
    subst hBb
    obtain ⟨hB₁, hB₂⟩ := bal_black.mp hB
    have hw' := hp
    rw [← plug_far] at hw'
    have k₁ := (setRed_reshaped hw' false).of_eq (plug_far ..) (plug_far ..)
    have k₂ := setRed_reshaped k₁.rep true
    obtain ⟨r₃, heq₃, k₃⟩ := rotate_reshaped k₂.rep
    have h₃ : RepTree r₃ (plug (⟨d, false, w, C⟩ :: ctx)
      (branch d true X p (branch d false B₁ b B₂))) := k₃.rep
    have hctx₃ : CtxBal (⟨d, false, w, C⟩ :: ctx) (m + 1) true :=
      ⟨hC, (fun hc => by cases hc), hctx⟩
    have hfar₃ : (r₃.nodes p).child d.other = some b := by rw [h₃.cell.far, root_branch]
    obtain ⟨r', up, T, heq, k, hdone, hup⟩ := fixRemoveBlack_spec hX hB₁ hB₂ hctx₃ h₃
    refine ⟨r', up, _, T, ?_, k₁.trans (k₂.trans (k₃.trans k)), hdone, fun hu => ?_⟩
    · simp only [if_true, heq₃, Option.bind_some, hfar₃]
      exact heq
    · obtain ⟨h1, h2, h3⟩ := hup hu
      exact ⟨h1, Or.inl h2, h3⟩

theorem rootOf_mem (f : Frame ℕ) (ctx : List (Frame ℕ)) (hole : Option ℕ) :
    ∃ b ∈ ctxItems (f :: ctx), rootOf (f :: ctx) hole = some b := by
  induction ctx generalizing f hole with
  | nil => exact ⟨f.item, mem_cons_self, rfl⟩
  | cons g ctx ih =>
    obtain ⟨b, hb, he⟩ := ih g (some f.item)
    exact ⟨b, mem_cons_of_mem _ (mem_append_right _ hb), he⟩

theorem fixRemoveLoop_red {n : ℕ} (hn : 0 < n) (hXr : X.isRed = true) (hX : Lacks X m)
    (hctx : CtxBal ctx (m + 1) false) (h : RepTree r (plug ctx X)) :
    ∃ r' x T, fixRemoveLoop n r X.root (above ctx) = some (r', x) ∧
      Reshaped r (r'.recolor x false) (plug ctx X) T ∧ RB T := by
  obtain ⟨n, rfl⟩ : ∃ n', n = n' + 1 := ⟨n - 1, by omega⟩
  have hisRed := h.isRed
  unfold Lacks at hX
  rw [if_pos hXr] at hX
  obtain ⟨X₁, x, X₂, rfl⟩ := exists_branch_of_isRed hXr .left
  refine ⟨r, some x, _, ?_, setRed_reshaped h false, CtxBal.plug ?_ hX⟩
  · unfold fixRemoveLoop
    rw [if_pos (Or.inr (by rw [hisRed, hXr]))]
    rfl
  · rw [isRed_branch]
    exact hctx

theorem fixRemoveLoop_spec : ∀ (n : ℕ) (ctx : List (Frame ℕ)) (r : Rbtree) (X : Shape ℕ) (m : ℕ),
    ctx.length < n → Lacks X m → CtxBal ctx (m + 1) false → RepTree r (plug ctx X) →
      ∃ r' x T, fixRemoveLoop n r X.root (above ctx) = some (r', x) ∧
        Reshaped r (r'.recolor x false) (plug ctx X) T ∧ RB T := by
  intro n
  induction n with
  | zero => intro ctx r X m hn; cases hn
  | succ n ih =>
    intro ctx r X m hn hX hctx h
    cases hXr : X.isRed with
    | true => exact fixRemoveLoop_red (Nat.succ_pos n) hXr hX hctx h
    | false =>
      have hisRed := h.isRed
      rw [hXr] at hisRed
      unfold Lacks at hX
      rw [hXr, if_neg (by decide)] at hX
      unfold fixRemoveLoop
      cases ctx with
      | nil =>
        have hroot : X.root = r.root := h.root.symm
        obtain ⟨hrep, hsame⟩ := recolor_root_spec h
        refine ⟨r, r.root, _, ?_, ⟨hrep, items_blacken _, hsame⟩, ?_⟩
        · rw [if_pos (Or.inl hroot), hroot]
        · show RB X.blacken
          rw [blacken_of_not_isRed hXr]
          exact ⟨hXr, m, hX⟩
      | cons f ctx =>
        obtain ⟨d, e, p, S⟩ := f
        obtain ⟨hroot, -, -, hnd⟩ := h.split
        obtain ⟨-, -, hdisj⟩ := nodup_append.mp hnd
        have hne : X.root ≠ r.root := by
          obtain ⟨b, hb, he⟩ := rootOf_mem ⟨d, e, p, S⟩ ctx X.root
          rw [hroot, he]
          exact fun hx => hdisj b (mem_items_of_root hx) b hb rfl
        have hp : RepTree r (plug ctx (branch d e X p S)) := h
        have hside : (if (r.nodes p).left = X.root then Side.left else Side.right) = d := by
          cases d with
          | left => exact if_pos hp.cell.near
          | right =>
            refine if_neg ?_
            show (r.nodes p).child (Side.right).other ≠ X.root
            rw [hp.cell.far]
            have hSm : Bal S (m + 1) := hctx.1
            obtain ⟨S₁, w, S₂, hS⟩ := hSm.exists_branch .left
            have hw : S.root = some w := by rw [hS, root_branch]
            intro hx
            rw [hw] at hx
            exact hdisj w (mem_items_of_root hx.symm) w
              (mem_cons_of_mem _ (mem_append_left _ (mem_items_of_root hw))) rfl
        obtain ⟨r₁, up, ctx', T, heq, k, hdone, hup⟩ := fixRemoveRound_spec hX hctx h
        have hlen : ctx.length < n := Nat.lt_of_succ_lt_succ hn
        rw [if_neg (by rw [hisRed]; simpa using hne)]
        simp only [above, hside, heq, Option.bind_eq_bind, Option.bind_some, Option.pure_def]
        cases up with
        | false =>
          have hrb := hdone rfl
          obtain ⟨hrep, hsame⟩ := recolor_root_spec k.rep
          refine ⟨r₁, r₁.root, _, rfl, k.trans ⟨hrep, items_blacken _, hsame⟩, ?_⟩
          rw [blacken_of_not_isRed hrb.1]
          exact hrb
        | true =>
          obtain ⟨hroot', hor, m', hT, hctx'⟩ := hup rfl
          have hparent : (r₁.nodes p).parent = above ctx' := by
            obtain ⟨c, T₁, T₂, rfl⟩ := exists_branch_of_root hroot' .left
            exact k.rep.cell.parent
          have hnext : ∃ r' x T', fixRemoveLoop n r₁ T.root (above ctx') = some (r', x) ∧
              Reshaped r₁ (r'.recolor x false) (plug ctx' T) T' ∧ RB T' := by
            cases hTr : T.isRed with
            | true => exact fixRemoveLoop_red (by omega) hTr hT hctx' k.rep
            | false =>
              obtain rfl : ctx' = ctx := hor.resolve_left (by rw [hTr]; decide)
              exact ih ctx' r₁ T m' hlen hT hctx' k.rep
          obtain ⟨r', x, T', heq', k', hT'⟩ := hnext
          refine ⟨r', x, T', ?_, k.trans k', hT'⟩
          simp only [if_true]
          rw [hparent, ← hroot']
          exact heq'

end Fix

/-! ## Search and removal -/

variable {r : Rbtree} {n : ℕ}

theorem findLoop_spec {k : ℕ} {t : Shape ℕ} {p : Option ℕ} (hn : t.items.length < n)
    (h : Rep r.nodes p t) (hord : Ordered r t.items) :
    (∃ a ∈ t.items, (r.nodes a).key = k ∧ findLoop r k n t.root = some (some a)) ∨
      (∀ a ∈ t.items, (r.nodes a).key ≠ k) ∧ findLoop r k n t.root = some none := by
  induction t generalizing p n with
  | nil =>
    obtain ⟨m, rfl⟩ : ∃ m, n = m + 1 := ⟨n - 1, by simp only [items, length_nil] at hn; omega⟩
    exact Or.inr ⟨(fun a ha => by cases ha), rfl⟩
  | node c l a s ihl ihs =>
    obtain ⟨hcell, hrepl, hreps⟩ := h
    have hleft : (r.nodes a).left = l.root := hcell.near
    have hright : (r.nodes a).right = s.root := hcell.far
    obtain ⟨hl, hs, hla, has⟩ := hord.branches
    have hlen : (Shape.node c l a s).items.length = l.items.length + (s.items.length + 1) := by
      simp [items]
    obtain ⟨m, rfl⟩ : ∃ m, n = m + 1 := ⟨n - 1, by omega⟩
    show (∃ b ∈ _, _ ∧ findLoop r k (m + 1) (some a) = _) ∨ _ ∧ findLoop r k (m + 1) (some a) = _
    unfold findLoop
    rw [hleft, hright]
    have hmem : ∀ b, b ∈ (Shape.node c l a s).items ↔ b = a ∨ b ∈ l.items ∨ b ∈ s.items := fun b =>
      mem_items_branch (d := .left)
    by_cases hka : k = (r.nodes a).key
    · rw [if_pos hka]
      exact Or.inl ⟨a, (hmem a).mpr (Or.inl rfl), hka.symm, rfl⟩
    rw [if_neg hka]
    by_cases hlt : k < (r.nodes a).key
    · rw [if_pos hlt]
      rcases ihl (show l.items.length < m by omega) hrepl hl with ⟨b, hb, hkb, heq⟩ | ⟨hno, heq⟩
      · exact Or.inl ⟨b, (hmem b).mpr (Or.inr (Or.inl hb)), hkb, heq⟩
      · refine Or.inr ⟨fun b hb => ?_, heq⟩
        rcases (hmem b).mp hb with rfl | hb | hb
        · exact Ne.symm hka
        · exact hno b hb
        · exact Nat.ne_of_gt (Nat.lt_trans hlt (has b hb))
    · rw [if_neg hlt]
      rcases ihs (show s.items.length < m by omega) hreps hs with ⟨b, hb, hkb, heq⟩ | ⟨hno, heq⟩
      · exact Or.inl ⟨b, (hmem b).mpr (Or.inr (Or.inr hb)), hkb, heq⟩
      · refine Or.inr ⟨fun b hb => ?_, heq⟩
        rcases (hmem b).mp hb with rfl | hb | hb
        · exact Ne.symm hka
        · have := hla b hb
          omega
        · exact hno b hb

theorem rbFind_spec {T : Shape ℕ} (h : RepTree r T) (hord : Ordered r T.items)
    (hn : T.items.length < n) (k : ℕ) :
    (∃ a ∈ T.items, (r.nodes a).key = k ∧ rbFind n r k = some (some a)) ∨
      (∀ a ∈ T.items, (r.nodes a).key ≠ k) ∧ rbFind n r k = some none := by
  unfold rbFind
  rw [h.root]
  exact findLoop_spec hn h.rep hord

/-- The fields that `rb_remove` clears. -/
def clearNode (n : RbtreeNode) : RbtreeNode :=
  { n with parent := none, left := none, right := none, red := false }

theorem fixRemove_spec {r' : Rbtree} {ctx ctx' : List (Frame ℕ)} {t L R X : Shape ℕ} {yRed : Bool}
    (h : Unlinked r r' ctx t L R X ctx' yRed) (hn : (plug ctx' X).items.length < n) :
    ∃ r'' T, (if yRed then some r' else
        (fixRemoveLoop n r' X.root (above ctx')).map fun (r, x) => r.recolor x false) = some r'' ∧
      Reshaped r' r'' (plug ctx' X) T ∧ RB T := by
  obtain ⟨m, hX, hctx⟩ := h.bal
  cases yRed with
  | true =>
    refine ⟨r', _, rfl, Reshaped.refl h.rep, CtxBal.plug ?_ hX⟩
    rw [hctx.1]
    exact hctx.2
  | false =>
    have hlen : ctx'.length < n := by
      have h1 := length_le_ctxItems ctx'
      have h2 := (items_plug_perm ctx' X).length_eq
      rw [length_append] at h2
      omega
    have hlacks : Lacks X m := by
      unfold Lacks
      split_ifs with hr
      · exact hX.blacken hr
      · exact hX
    obtain ⟨r₁, x, T, heq, k, hT⟩ := fixRemoveLoop_spec n ctx' r' X m hlen hlacks hctx h.rep
    refine ⟨_, T, ?_, k, hT⟩
    rw [heq]
    rfl

theorem rbRemove_spec {T : Shape ℕ} (h : RepTree r T) (hord : Ordered r T.items) (hrb : RB T)
    (hn : T.items.length < n) (k : ℕ) :
    (∃ z ∈ T.items, (r.nodes z).key = k ∧ ∃ r' T', rbRemove n r k = some (some z, r') ∧
        RepTree r' T' ∧ Ordered r' T'.items ∧ RB T' ∧ T.items.Perm (z :: T'.items) ∧
        Same T.items r r' ∧ r'.nodes z = clearNode (r.nodes z)) ∨
      (∀ a ∈ T.items, (r.nodes a).key ≠ k) ∧ rbRemove n r k = some (none, r) := by
  unfold rbRemove
  rcases rbFind_spec h hord hn k with ⟨z, hz, hkz, hfind⟩ | ⟨hno, hfind⟩
  · refine Or.inl ⟨z, hz, hkz, ?_⟩
    obtain ⟨ctx, c, L, R, rfl⟩ := exists_plug_of_mem hz
    have h₀ : RepTree r (plug ctx (branch .left c L z R)) := h
    have hitems : (plug ctx (branch .left c L z R)).items =
        before ctx ++ (L.items ++ z :: R.items ++ after ctx) := items_plug ..
    have hlenR : R.items.length < n := by
      have hlen := congrArg List.length hitems
      have hn' : (plug ctx (branch .left c L z R)).items.length < n := hn
      simp only [length_append, length_cons] at hlen
      omega
    obtain ⟨r₁, ctx', X, yRed, heq₁, hu⟩ := unlink_spec h₀ hrb hlenR
    have hperm : (plug ctx (branch .left c L z R)).items.Perm (z :: (plug ctx' X).items) := by
      rw [hitems, hu.items]
      simp only [append_assoc, cons_append]
      rw [← append_assoc, ← append_assoc (before ctx)]
      exact perm_middle
    have hnd := hperm.nodup_iff.mp h₀.nodup
    have hlen : (plug ctx' X).items.length < n := by
      have := hperm.length_eq
      have hn' : (plug ctx (branch .left c L z R)).items.length < n := hn
      rw [length_cons] at this
      omega
    obtain ⟨r₂, T', heq₂, hk, hT'⟩ := fixRemove_spec hu hlen
    have hzT : z ∉ T'.items := by
      rw [hk.items]
      exact (nodup_cons.mp hnd).1
    have s₃ : Same [z] r₂ (r₂.modify z clearNode) := modify_same r₂ mem_cons_self ⟨rfl, rfl⟩
    have hs : Same (plug ctx (branch .left c L z R)).items r (r₂.modify z clearNode) := by
      refine (hu.same.trans (hk.same.mono fun b hb => ?_)).trans (s₃.mono fun b hb => ?_)
      · exact hperm.mem_iff.mpr (mem_cons_of_mem _ hb)
      · rw [mem_singleton.mp hb]
        exact hz
    refine ⟨r₂.modify z clearNode, T', ?_, ⟨?_, ?_, ?_⟩, ?_, hT', ?_, hs, ?_⟩
    · have hdone := congrArg (fun o => o.bind fun r => some (some z, r.modify z clearNode)) heq₂
      simp only [hfind, Option.bind_eq_bind, Option.bind_some, heq₁, Option.pure_def]
      cases yRed <;> exact hdone
    · exact hk.rep.root
    · exact hk.rep.rep.congr fun b hb => modify_of_ne r₂ _ (ne_of_mem_of_not_mem hb hzT)
    · exact hk.rep.nodup
    · refine Ordered.of_same (hord.sublist ?_) hs
      rw [hk.items, hu.items]
      show (before ctx ++ (L.items ++ R.items ++ after ctx)).Sublist
        (plug ctx (branch .left c L z R)).items
      rw [hitems]
      refine (List.Sublist.refl _).append (List.Sublist.append ?_ (List.Sublist.refl _))
      exact (List.Sublist.refl _).append ((List.Sublist.refl _).cons z)
    · rw [hk.items]
      exact hperm
    · rw [modify_self]
      obtain ⟨hkey, hvalue, -⟩ := (hu.same.trans (hk.same.mono fun b hb =>
        hperm.mem_iff.mpr (mem_cons_of_mem _ hb))) z
      unfold clearNode
      rw [hkey, hvalue]
  · refine Or.inr ⟨hno, ?_⟩
    rw [hfind]
    rfl

end LykOS.Rbtree
