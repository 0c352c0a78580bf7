import Mathlib.Algebra.Ring.Int.Defs
import Mathlib.Algebra.Ring.Nat
import Mathlib.Data.List.Pairwise
import Mathlib.Order.Basic

/-!
# Intervals in order

Lists of half-open intervals `[base a, base a + len a)` of natural numbers, for any type of items with a
base and a length. `Tidy lo top` says that they lie in `[lo, top)` one after the other; `insertByBase` keeps
that for an interval that overlaps none of them (`Tidy.insert`). `firstFit` walks the list for a gap of a
given length. On a list that is only sorted its answer is free if no interval before it reaches past it
(`Clear`).
-/

namespace Interval

open List hiding max

variable {α : Type*} (base len : α → ℕ)

/-- The two intervals have no number in common. -/
def Apart (b n b' n' : ℕ) : Prop := ∀ x, b ≤ x → x < b + n → ¬ (b' ≤ x ∧ x < b' + n')

theorem apart_of_le {b n b' n' : ℕ} (h : b + n ≤ b' ∨ b' + n' ≤ b) : Apart b n b' n' := by
  intro x h1 h2 h3
  omega

theorem le_of_apart {b n b' n' : ℕ} (h : Apart b n b' n') (hn : 0 < n) (hn' : 0 < n') :
    b + n ≤ b' ∨ b' + n' ≤ b := by
  by_contra hc
  rcases Nat.le_total b b' with hb | hb
  · exact h b' hb (by omega) ⟨le_rfl, by omega⟩
  · exact h b le_rfl (by omega) ⟨hb, by omega⟩

/-! ## Tidy lists -/

def Tidy (top : ℕ) : ℕ → List α → Prop
  | _, [] => True
  | lo, a :: l => lo ≤ base a ∧ 0 < len a ∧ base a + len a ≤ top ∧ Tidy top (base a + len a) l

/-- `a` before the first item whose base is not smaller. -/
def insertByBase (a : α) (l : List α) : List α :=
  l.takeWhile (fun b => base b < base a) ++ a :: l.dropWhile (fun b => base b < base a)

variable {a b : α} {l : List α}

theorem mem_insertByBase : b ∈ insertByBase base a l ↔ b = a ∨ b ∈ l := by
  unfold insertByBase
  rw [mem_append, mem_cons, or_left_comm, ← mem_append, takeWhile_append_dropWhile]

theorem insertByBase_perm (a : α) (l : List α) : (insertByBase base a l).Perm (a :: l) := by
  unfold insertByBase
  refine perm_middle.trans (List.Perm.cons a ?_)
  rw [takeWhile_append_dropWhile]

theorem insertByBase_cons_of_lt (h : base b < base a) :
    insertByBase base a (b :: l) = b :: insertByBase base a l := by
  unfold insertByBase
  rw [takeWhile_cons_of_pos (by simpa using h), dropWhile_cons_of_pos (by simpa using h), cons_append]

theorem insertByBase_cons_of_le (h : base a ≤ base b) :
    insertByBase base a (b :: l) = a :: b :: l := by
  unfold insertByBase
  rw [takeWhile_cons_of_neg (by simpa using h), dropWhile_cons_of_neg (by simpa using h), nil_append]

theorem sorted_insertByBase (h : l.Pairwise fun x y => base x ≤ base y) :
    (insertByBase base a l).Pairwise fun x y => base x ≤ base y := by
  induction l with
  | nil => exact pairwise_singleton _ _
  | cons b l ih =>
    obtain ⟨hb, hl⟩ := pairwise_cons.mp h
    by_cases hlt : base b < base a
    · rw [insertByBase_cons_of_lt base hlt, pairwise_cons]
      refine ⟨fun x hx => ?_, ih hl⟩
      rcases (mem_insertByBase base).mp hx with rfl | hx
      · exact hlt.le
      · exact hb x hx
    · have hle : base a ≤ base b := Nat.le_of_not_lt hlt
      rw [insertByBase_cons_of_le base hle, pairwise_cons]
      refine ⟨fun x hx => ?_, h⟩
      rcases mem_cons.mp hx with rfl | hx
      · exact hle
      · exact hle.trans (hb x hx)

namespace Tidy

variable {base len} {top lo : ℕ} {l : List α}

theorem bounds (h : Tidy base len top lo l) :
    ∀ a ∈ l, lo ≤ base a ∧ 0 < len a ∧ base a + len a ≤ top := by
  induction l generalizing lo with
  | nil => simp
  | cons b l ih =>
    obtain ⟨h1, h2, h3, h4⟩ := h
    intro a ha
    rcases mem_cons.mp ha with rfl | ha
    · exact ⟨h1, h2, h3⟩
    · obtain ⟨h5, h6⟩ := ih h4 a ha
      exact ⟨by omega, h6⟩

theorem pairwise (h : Tidy base len top lo l) : l.Pairwise fun a b => base a + len a ≤ base b := by
  induction l generalizing lo with
  | nil => exact List.Pairwise.nil
  | cons a l ih => exact pairwise_cons.mpr ⟨fun b hb => (h.2.2.2.bounds b hb).1, ih h.2.2.2⟩

theorem sorted (h : Tidy base len top lo l) : l.Pairwise fun a b => base a ≤ base b :=
  h.pairwise.imp fun hab => by omega

/-- Intervals that are sorted, disjoint, not empty and inside `[lo, top)` come one after the other. -/
theorem of_apart (hs : l.Pairwise fun a b => base a ≤ base b)
    (hd : l.Pairwise fun a b => Apart (base a) (len a) (base b) (len b))
    (hin : ∀ a ∈ l, lo ≤ base a ∧ 0 < len a ∧ base a + len a ≤ top) : Tidy base len top lo l := by
  induction l generalizing lo with
  | nil => trivial
  | cons a l ih =>
    obtain ⟨hsa, hs⟩ := pairwise_cons.mp hs
    obtain ⟨hda, hd⟩ := pairwise_cons.mp hd
    obtain ⟨hlo, hpos, htop⟩ := hin a mem_cons_self
    refine ⟨hlo, hpos, htop, ih hs hd fun b hb => ?_⟩
    have hb' := hin b (mem_cons_of_mem _ hb)
    have hsides := le_of_apart (hda b hb) hpos hb'.2.1
    have hle := hsa b hb
    exact ⟨by omega, hb'.2⟩

theorem insert {a : α} (h : Tidy base len top lo l) (hlo : lo ≤ base a) (hpos : 0 < len a)
    (htop : base a + len a ≤ top)
    (hap : ∀ b ∈ l, Apart (base b) (len b) (base a) (len a)) :
    Tidy base len top lo (insertByBase base a l) := by
  induction l generalizing lo with
  | nil => exact ⟨hlo, hpos, htop, trivial⟩
  | cons b l ih =>
    obtain ⟨h1, h2, h3, h4⟩ := h
    have hab := le_of_apart (hap b mem_cons_self) h2 hpos
    by_cases hlt : base b < base a
    · rw [insertByBase_cons_of_lt base hlt]
      exact ⟨h1, h2, h3, ih h4 (by omega) fun c hc => hap c (mem_cons_of_mem _ hc)⟩
    · rw [insertByBase_cons_of_le base (Nat.le_of_not_lt hlt)]
      exact ⟨hlo, hpos, htop, by omega, h2, h3, h4⟩

end Tidy

/-! ## Looking for a gap -/

/-- Walk from `start` to the first interval with more than `n` free numbers before it. -/
def firstFit (n : ℕ) : ℕ → List α → ℕ
  | start, [] => start
  | start, a :: l => if start + n < base a then start else firstFit n (base a + len a) l

/-- Some gap between two intervals, or the rest up to `top`, takes `n` numbers. -/
def HasGap (n top : ℕ) : ℕ → List α → Prop
  | start, [] => start + n ≤ top
  | start, a :: l => start + n < base a ∨ HasGap n top (base a + len a) l

/-- The walk finds a gap, and no interval that it passed ends after the start of that gap; `reach` is
how far those passed before reach. -/
def Clear (n top : ℕ) : ℕ → ℕ → List α → Prop
  | reach, start, [] => start + n ≤ top ∧ reach ≤ start
  | reach, start, a :: l =>
    (start + n < base a ∧ reach ≤ start) ∨
      (base a ≤ start + n ∧ Clear n top (max reach (base a + len a)) (base a + len a) l)

instance HasGap.decidable (n top : ℕ) : ∀ (start : ℕ) (l : List α),
    Decidable (HasGap base len n top start l)
  | start, [] => inferInstanceAs (Decidable (start + n ≤ top))
  | start, a :: l =>
    have := HasGap.decidable n top (base a + len a) l
    inferInstanceAs (Decidable (start + n < base a ∨ HasGap base len n top (base a + len a) l))

instance Clear.decidable (n top : ℕ) : ∀ (reach start : ℕ) (l : List α),
    Decidable (Clear base len n top reach start l)
  | reach, start, [] => inferInstanceAs (Decidable (start + n ≤ top ∧ reach ≤ start))
  | reach, start, a :: l =>
    have := Clear.decidable n top (max reach (base a + len a)) (base a + len a) l
    inferInstanceAs (Decidable ((start + n < base a ∧ reach ≤ start) ∨
      (base a ≤ start + n ∧
        Clear base len n top (max reach (base a + len a)) (base a + len a) l)))

section

variable {base len} {n top reach start : ℕ} {l : List α}

theorem Clear.reach_le (h : Clear base len n top reach start l) :
    reach ≤ firstFit base len n start l := by
  induction l generalizing reach start with
  | nil => exact h.2
  | cons a l ih =>
    unfold firstFit
    rcases h with ⟨hlt, hr⟩ | ⟨hge, h⟩
    · rw [if_pos hlt]
      exact hr
    · rw [if_neg (Nat.not_lt.mpr hge)]
      exact (Nat.le_max_left _ _).trans (ih h)

theorem Clear.fits (h : Clear base len n top reach start l) (hb : ∀ a ∈ l, base a ≤ top) :
    firstFit base len n start l + n ≤ top := by
  induction l generalizing reach start with
  | nil => exact h.1
  | cons a l ih =>
    unfold firstFit
    rcases h with ⟨hlt, -⟩ | ⟨hge, h⟩
    · rw [if_pos hlt]
      exact hlt.le.trans (hb a mem_cons_self)
    · rw [if_neg (Nat.not_lt.mpr hge)]
      exact ih h fun b hb' => hb b (mem_cons_of_mem _ hb')

theorem Clear.apart (h : Clear base len n top reach start l)
    (hs : l.Pairwise fun a b => base a ≤ base b) :
    ∀ a ∈ l, base a + len a ≤ firstFit base len n start l ∨
      firstFit base len n start l + n < base a := by
  induction l generalizing reach start with
  | nil => simp
  | cons b l ih =>
    obtain ⟨hb, hl⟩ := pairwise_cons.mp hs
    unfold firstFit
    intro a ha
    rcases h with ⟨hlt, -⟩ | ⟨hge, h⟩
    · rw [if_pos hlt]
      rcases mem_cons.mp ha with rfl | ha
      · exact Or.inr hlt
      · exact Or.inr (hlt.trans_le (hb a ha))
    · rw [if_neg (Nat.not_lt.mpr hge)]
      rcases mem_cons.mp ha with rfl | ha
      · exact Or.inl ((Nat.le_max_right _ _).trans h.reach_le)
      · exact ih h hl a ha

theorem hasGap_of_sum (h : start + (l.map fun a => len a + n).sum + n ≤ top) :
    HasGap base len n top start l := by
  induction l generalizing start with
  | nil =>
    rw [map_nil, sum_nil, Nat.add_zero] at h
    exact h
  | cons a l ih =>
    rw [map_cons, sum_cons] at h
    by_cases hlt : start + n < base a
    · exact Or.inl hlt
    · exact Or.inr (ih (by omega))

theorem Tidy.firstFit_le (ht : Tidy base len top start l) (hle : start ≤ top) :
    firstFit base len n start l ≤ top := by
  induction l generalizing start with
  | nil => exact hle
  | cons a l ih =>
    unfold firstFit
    split_ifs
    · exact hle
    · exact ih ht.2.2.2 ht.2.2.1

theorem hasGap_of_firstFit (h : firstFit base len n start l + n ≤ top) :
    HasGap base len n top start l := by
  induction l generalizing start with
  | nil => exact h
  | cons a l ih =>
    unfold firstFit at h
    split_ifs at h with hlt
    · exact Or.inl hlt
    · exact Or.inr (ih h)

theorem Tidy.clear (ht : Tidy base len top start l) (h : HasGap base len n top start l) :
    Clear base len n top start start l := by
  induction l generalizing start with
  | nil => exact ⟨h, le_rfl⟩
  | cons a l ih =>
    obtain ⟨h1, h2, h3, h4⟩ := ht
    by_cases hlt : start + n < base a
    · exact Or.inl ⟨hlt, le_rfl⟩
    · refine Or.inr ⟨Nat.le_of_not_lt hlt, ?_⟩
      rw [Nat.max_eq_right (by omega)]
      exact ih h4 (h.resolve_left hlt)

end

end Interval
