import Mathlib.Data.List.Basic

/-!
# Runs of a partial step function

`run step s ops` performs the operations `ops` from `s`; it has no result when one of them has none. An
invariant of the steps is an invariant of the runs (`run_induction`, and `run_induction_count` for one that
counts the steps), and one that only the steps meeting a condition keep is an invariant of the runs all of
whose steps meet it (`run_induction_of_meets`; `run_total_of_meets` if these steps have a result).
Conditions are compared step by step (`meets_iff_of_run`, `meets_iff_of_step`).
-/

namespace Run

variable {σ ο : Type*} {step : σ → ο → Option σ}

def run (step : σ → ο → Option σ) (s : σ) (ops : List ο) : Option σ := ops.foldlM step s

@[simp] theorem run_nil (s : σ) : run step s [] = some s := rfl

theorem run_cons (s : σ) (o : ο) (ops : List ο) :
    run step s (o :: ops) = (step s o).bind fun s' => run step s' ops := rfl

theorem run_cons_eq_some {s t : σ} {o : ο} {ops : List ο} :
    run step s (o :: ops) = some t ↔ ∃ s', step s o = some s' ∧ run step s' ops = some t := by
  rw [run_cons, Option.bind_eq_some_iff]

theorem run_append (s : σ) (ops ops' : List ο) :
    run step s (ops ++ ops') = (run step s ops).bind fun s' => run step s' ops' := by
  unfold run
  rw [List.foldlM_append]
  rfl

theorem run_induction {I : σ → Prop} (hstep : ∀ s o s', I s → step s o = some s' → I s')
    {s t : σ} {ops : List ο} (hs : I s) (h : run step s ops = some t) : I t := by
  induction ops generalizing s with
  | nil => cases h; exact hs
  | cons o ops ih =>
    obtain ⟨s', hs', h⟩ := run_cons_eq_some.mp h
    exact ih (hstep s o s' hs hs') h

theorem run_induction_count {I : ℕ → σ → Prop} {n : ℕ}
    (hstep : ∀ m s o s', m < n → I m s → step s o = some s' → I (m + 1) s') {m : ℕ} {s t : σ}
    {ops : List ο} (hn : m + ops.length ≤ n) (hs : I m s) (h : run step s ops = some t) :
    I (m + ops.length) t := by
  induction ops generalizing m s with
  | nil => cases h; exact hs
  | cons o ops ih =>
    obtain ⟨s', hs', h⟩ := run_cons_eq_some.mp h
    rw [List.length_cons] at hn
    have hnext := ih (by omega) (hstep m s o s' (by omega) hs hs') h
    rw [List.length_cons, show m + (ops.length + 1) = m + 1 + ops.length by omega]
    exact hnext

/-- Every step of the run from `s` meets `C` in the state it starts from. -/
def Meets (step : σ → ο → Option σ) (C : σ → ο → Prop) : σ → List ο → Prop
  | _, [] => True
  | s, o :: ops => C s o ∧ ∀ s', step s o = some s' → Meets step C s' ops

theorem run_induction_of_meets {I : σ → Prop} {C : σ → ο → Prop}
    (hstep : ∀ s o s', I s → C s o → step s o = some s' → I s') {s t : σ} {ops : List ο}
    (hs : I s) (hC : Meets step C s ops) (h : run step s ops = some t) : I t := by
  induction ops generalizing s with
  | nil => cases h; exact hs
  | cons o ops ih =>
    obtain ⟨s', hs', h⟩ := run_cons_eq_some.mp h
    exact ih (hstep s o s' hs hC.1 hs') (hC.2 s' hs') h

theorem run_total_of_meets {I : σ → Prop} {C : σ → ο → Prop}
    (hstep : ∀ s o, I s → C s o → ∃ s', step s o = some s' ∧ I s') {s : σ} {ops : List ο}
    (hs : I s) (hC : Meets step C s ops) : ∃ t, run step s ops = some t ∧ I t := by
  induction ops generalizing s with
  | nil => exact ⟨s, rfl, hs⟩
  | cons o ops ih =>
    obtain ⟨s', hs', hI⟩ := hstep s o hs hC.1
    obtain ⟨t, ht, hIt⟩ := ih hI (hC.2 s' hs')
    exact ⟨t, run_cons_eq_some.mpr ⟨s', hs', ht⟩, hIt⟩

theorem meets_iff_of_run {I : σ → Prop} {C D : σ → ο → Prop}
    (hiff : ∀ s o s', I s → step s o = some s' → (C s o ↔ D s o))
    (hstep : ∀ s o s', I s → D s o → step s o = some s' → I s') {s t : σ} {ops : List ο}
    (hs : I s) (h : run step s ops = some t) : Meets step C s ops ↔ Meets step D s ops := by
  induction ops generalizing s with
  | nil => exact Iff.rfl
  | cons o ops ih =>
    obtain ⟨s', hs', h⟩ := run_cons_eq_some.mp h
    have hCD := hiff s o s' hs hs'
    refine and_congr_left' hCD |>.trans (and_congr_right fun hD => ?_)
    have hrest := ih (hstep s o s' hs hD hs') h
    refine ⟨fun hC t' ht' => ?_, fun hD t' ht' => ?_⟩
    · cases hs'.symm.trans ht'
      exact hrest.mp (hC s' hs')
    · cases hs'.symm.trans ht'
      exact hrest.mpr (hD s' hs')

theorem meets_of_step {I : σ → Prop} {C D : σ → ο → Prop} (himp : ∀ s o, I s → D s o → C s o)
    (hstep : ∀ s o s', I s → D s o → step s o = some s' → I s') {s : σ} {ops : List ο} (hs : I s)
    (h : Meets step D s ops) : Meets step C s ops := by
  induction ops generalizing s with
  | nil => trivial
  | cons o ops ih =>
    exact ⟨himp s o hs h.1, fun s' hs' => ih (hstep s o s' hs h.1 hs') (h.2 s' hs')⟩

instance decidableMeets (step : σ → ο → Option σ) (C : σ → ο → Prop) [∀ s o, Decidable (C s o)] :
    ∀ s ops, Decidable (Meets step C s ops)
  | _, [] => isTrue trivial
  | s, o :: ops =>
    have := fun s' => decidableMeets step C s' ops
    inferInstanceAs (Decidable (C s o ∧ ∀ s' ∈ step s o, Meets step C s' ops))

theorem meets_last {C : σ → ο → Prop} {s t : σ} {ops : List ο} {o : ο} (h : run step s ops = some t)
    (hm : Meets step C s (ops ++ [o])) : C t o := by
  induction ops generalizing s with
  | nil =>
    cases h
    exact hm.1
  | cons o' ops ih =>
    obtain ⟨s', hs', h⟩ := run_cons_eq_some.mp h
    exact ih h (hm.2 s' hs')

theorem meets_true (s : σ) (ops : List ο) : Meets step (fun _ _ => True) s ops := by
  induction ops generalizing s with
  | nil => trivial
  | cons o ops ih => exact ⟨trivial, fun s' _ => ih s'⟩

theorem meets_iff_of_step {I : σ → Prop} {C D : σ → ο → Prop} (hiff : ∀ s o, I s → (C s o ↔ D s o))
    (hstep : ∀ s o s', I s → D s o → step s o = some s' → I s') {s : σ} {ops : List ο} (hs : I s) :
    Meets step C s ops ↔ Meets step D s ops := by
  induction ops generalizing s with
  | nil => exact Iff.rfl
  | cons o ops ih =>
    constructor
    · rintro ⟨hC, hrest⟩
      have hD := (hiff s o hs).mp hC
      exact ⟨hD, fun s' hs' => (ih (hstep s o s' hs hD hs')).mp (hrest s' hs')⟩
    · rintro ⟨hD, hrest⟩
      exact ⟨(hiff s o hs).mpr hD, fun s' hs' => (ih (hstep s o s' hs hD hs')).mpr (hrest s' hs')⟩

/-! ## The states of a run -/

/-- Some state of the run, its first and last included, has `Q`. -/
def Visits (step : σ → ο → Option σ) (Q : σ → Prop) (s : σ) (ops : List ο) : Prop :=
  ∃ ops₁ ops₂ t, ops = ops₁ ++ ops₂ ∧ run step s ops₁ = some t ∧ Q t

theorem visits_of_start {Q : σ → Prop} {s : σ} (ops : List ο) (h : Q s) : Visits step Q s ops :=
  ⟨[], ops, s, rfl, rfl, h⟩

theorem visits_nil {Q : σ → Prop} {s : σ} : Visits step Q s [] ↔ Q s := by
  constructor
  · rintro ⟨ops₁, ops₂, t, hops, hrun, hQ⟩
    obtain ⟨rfl, -⟩ := List.append_eq_nil_iff.mp hops.symm
    cases hrun
    exact hQ
  · exact visits_of_start []

theorem visits_cons {Q : σ → Prop} {s s' : σ} {o : ο} {ops : List ο} (hs : step s o = some s') :
    Visits step Q s (o :: ops) ↔ Q s ∨ Visits step Q s' ops := by
  constructor
  · rintro ⟨ops₁, ops₂, t, hops, hrun, hQ⟩
    cases ops₁ with
    | nil =>
      cases hrun
      exact Or.inl hQ
    | cons o' ops₁ =>
      obtain ⟨rfl, rfl⟩ := List.cons.inj hops
      rw [run_cons, hs] at hrun
      exact Or.inr ⟨ops₁, ops₂, t, rfl, hrun, hQ⟩
  · rintro (hQ | ⟨ops₁, ops₂, t, rfl, hrun, hQ⟩)
    · exact visits_of_start _ hQ
    · refine ⟨o :: ops₁, ops₂, t, rfl, ?_, hQ⟩
      rw [run_cons, hs]
      exact hrun

end Run
