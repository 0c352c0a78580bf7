import LykOS.Lib.Path

/-!
# Which paths are normalized as they should be

A path should be left with the components it has, other than the empty ones and `.`, and stay absolute or
relative (`Normalizes`). `path_normalize` does not know where a component starts, so it takes a dot at the
end of any component for `.`, and it copies the slash behind the one of `./`. These are the only errors
(`path_normalize_iff`).
-/

namespace LykOS.Pathname

open CStr Vfs List

def names (s : List UInt8) : List (List UInt8) := (components slash s).filter (· ≠ [dot])

/-- `out` is what `path_normalize` should make of `s`. -/
structure Normalizes (s out : List UInt8) : Prop where
  absolute : out.head? = some slash ↔ s.head? = some slash
  no_empty : ¬ [slash, slash] <:+: out
  no_dot : [dot] ∉ components slash out
  no_trailing : out.getLast? = some slash → out = [slash]
  components : components slash out = names s

/-- A component that ends in a dot is `.`. -/
def DotsAlone (s : List UInt8) : Prop := ∀ c ∈ components slash s, c.getLast? = some dot → c = [dot]

/-- A `./` has another slash behind it. -/
def Loose (s : List UInt8) : Prop := [dot, slash, slash] <:+: s

instance (s : List UInt8) : Decidable (Loose s) := inferInstanceAs (Decidable (_ <:+: _))

/-- How often a `./` has another slash behind it. -/
def looseCount : List UInt8 → ℕ
  | [] => 0
  | a :: s => (if [dot, slash, slash] <+: a :: s then 1 else 0) + looseCount s

/-- The paths that are normalized as they should be. One slash too many does no harm in an absolute path
without names, such as `/.//`: it is behind that of the root. -/
structure Plain (s : List UInt8) : Prop where
  dots : DotsAlone s
  slashes : ¬ Loose s ∨ s.head? = some slash ∧ names s = [] ∧ looseCount s = 1

/-- The normal form of a path. -/
def canonical (s : List UInt8) : List UInt8 :=
  (if s.head? = some slash then [slash] else []) ++ joined (names s)

/-! ## Components -/

section

variable {c tail : List UInt8}

/-- What follows a component: nothing, or a slash. -/
def Follows (tail : List UInt8) : Prop := tail = [] ∨ ∃ t, tail = slash :: t

theorem path_induction {P : List UInt8 → Prop} (nil : P [])
    (slashes : ∀ s, P (s.dropWhile (· == slash)) → P (slash :: s))
    (comp : ∀ c tail, c ≠ [] → (∀ a ∈ c, a ≠ slash) → Follows tail → P tail → P (tail.drop 1) →
      P (c ++ tail)) (s : List UInt8) : P s := by
  induction hn : s.length using Nat.strong_induction_on generalizing s with
  | _ n ih =>
    cases s with
    | nil => exact nil
    | cons a s =>
      rw [length_cons] at hn
      by_cases ha : a = slash
      · have hlen := (dropWhile_sublist (· == slash) (l := s)).length_le
        rw [ha]
        exact slashes s (ih _ (by omega) _ rfl)
      · let c := (a :: s).takeWhile (· ≠ slash)
        let tail := (a :: s).dropWhile (· ≠ slash)
        have happ : c ++ tail = a :: s := takeWhile_append_dropWhile
        have hne : c ≠ [] := by
          have hcons : c = a :: s.takeWhile (· ≠ slash) := takeWhile_cons_of_pos (by simpa using ha)
          rw [hcons]
          exact cons_ne_nil _ _
        have htail : Follows tail := by
          cases h : tail with
          | nil => exact Or.inl rfl
          | cons b t =>
            have hb := head?_dropWhile_not (· ≠ slash) (a :: s)
            rw [show (a :: s).dropWhile (· ≠ slash) = b :: t from h] at hb
            have hb' : b = slash := by simpa using hb
            exact Or.inr ⟨t, by rw [hb']⟩
        have hpos := length_pos_iff.mpr hne
        have hlen := congrArg List.length happ
        rw [length_append, length_cons] at hlen
        rw [← happ]
        refine comp c tail hne (fun b hb => ?_) htail (ih _ (by omega) _ rfl) (ih _ ?_ _ rfl)
        · simpa using mem_takeWhile_imp hb
        · rw [length_drop]
          omega

theorem components_slashes (s : List UInt8) :
    components slash (slash :: s) = components slash (s.dropWhile (· == slash)) := by
  rw [components_cons_sep, components_dropWhile]

theorem components_tail (h : Follows tail) : components slash (tail.drop 1) = components slash tail := by
  rcases h with rfl | ⟨t, rfl⟩
  · rfl
  · exact (components_cons_sep slash t).symm

theorem components_comp (hne : c ≠ []) (hc : ∀ a ∈ c, a ≠ slash) (h : Follows tail) :
    components slash (c ++ tail) = c :: components slash tail := by
  rcases h with rfl | ⟨t, rfl⟩
  · rw [List.append_nil, components_of_forall slash hc hne, components_nil]
  · rw [components_append_sep slash hc, if_neg hne, components_cons_sep]

theorem flatten_components (s : List UInt8) :
    (components slash s).flatten = s.filter (· ≠ slash) := by
  induction s using path_induction with
  | nil => simp
  | slashes s ih =>
    have hdrop : (s.dropWhile (· == slash)).filter (· ≠ slash) = s.filter (· ≠ slash) := by
      have hnone : (s.takeWhile (· == slash)).filter (· ≠ slash) = [] :=
        filter_eq_nil_iff.mpr fun a ha => by simpa using mem_takeWhile_imp ha
      have happ := congrArg (List.filter (· ≠ slash))
        (takeWhile_append_dropWhile (p := (· == slash)) (l := s))
      rwa [filter_append, hnone, nil_append] at happ
    rw [components_slashes, ih, hdrop, filter_cons_of_neg (by simp)]
  | comp c tail hne hc htail ih _ =>
    have hself : c.filter (· ≠ slash) = c := filter_eq_self.mpr fun a ha => by simpa using hc a ha
    rw [components_comp hne hc htail, flatten_cons, ih, filter_append, hself]

theorem names_slashes (s : List UInt8) : names (slash :: s) = names (s.dropWhile (· == slash)) := by
  unfold names
  rw [components_slashes]

theorem head?_dropWhile_ne (s : List UInt8) : (s.dropWhile (· == slash)).head? ≠ some slash := by
  have h := head?_dropWhile_not (· == slash) s
  intro hslash
  rw [hslash] at h
  simp at h

theorem head?_comp_ne (hne : c ≠ []) (hc : ∀ a ∈ c, a ≠ slash) (tail : List UInt8) :
    (c ++ tail).head? ≠ some slash := by
  obtain ⟨a, c, rfl⟩ := exists_cons_of_ne_nil hne
  exact fun h => hc a mem_cons_self (Option.some.inj h)

end

/-! ## What the loop writes -/

section

variable {c tail : List UInt8}

theorem normalizeChars_slashes (s : List UInt8) :
    normalizeChars (slash :: s) = slash :: normalizeChars (s.dropWhile (· == slash)) := by
  rw [normalizeChars, if_pos rfl]

theorem normalizeChars_dotted (hc : ∀ a ∈ c, a ≠ slash) (h : Follows tail) :
    normalizeChars (c ++ [dot] ++ tail) = c ++ normalizeChars (tail.drop 1) := by
  induction c with
  | nil =>
    have hend : tail = [] ∨ tail.head? = some slash := by
      rcases h with rfl | ⟨t, rfl⟩
      · exact Or.inl rfl
      · exact Or.inr rfl
    rw [nil_append, singleton_append, normalizeChars, if_neg (by decide), if_pos ⟨rfl, hend⟩]
    rfl
  | cons a c ih =>
    have hfollow : ¬ (a = dot ∧ (c ++ [dot] ++ tail = [] ∨ (c ++ [dot] ++ tail).head? = some slash)) := by
      rintro ⟨-, hnext⟩
      cases c with
      | nil => rcases hnext with h | h <;> exact absurd h (by simp [dot, slash])
      | cons b c =>
        rcases hnext with h | h
        · cases h
        · exact hc b (by simp) (Option.some.inj h)
    rw [cons_append, cons_append, normalizeChars, if_neg (hc a mem_cons_self),
      if_neg hfollow, ih fun b hb => hc b (mem_cons_of_mem _ hb), cons_append]

/-- What is left of a component. -/
def cut (c : List UInt8) : List UInt8 := if c.getLast? = some dot then c.dropLast else c

theorem dropLast_append_dot (h : c.getLast? = some dot) : c.dropLast ++ [dot] = c := by
  obtain ⟨c, rfl⟩ := getLast?_eq_some_iff.mp h
  rw [dropLast_concat]

theorem filter_normalizeChars (s : List UInt8) :
    (normalizeChars s).filter (· ≠ slash) = ((components slash s).map cut).flatten := by
  induction s using path_induction with
  | nil => simp [normalizeChars]
  | slashes s ih => rw [normalizeChars_slashes, components_slashes, filter_cons_of_neg (by simp), ih]
  | comp c tail hne hc htail ih ih' =>
    have hkeep : ∀ b : List UInt8, (∀ a ∈ b, a ≠ slash) → b.filter (· ≠ slash) = b := fun b hb =>
      filter_eq_self.mpr fun a ha => by simpa using hb a ha
    rw [components_comp hne hc htail, map_cons, flatten_cons, cut]
    split_ifs with hdot
    · have hc' : ∀ a ∈ c.dropLast, a ≠ slash := fun a ha => hc a ((dropLast_sublist c).subset ha)
      conv_lhs => rw [← dropLast_append_dot hdot]
      rw [normalizeChars_dotted hc' htail, filter_append, hkeep _ hc', ih', components_tail htail]
    · rw [normalizeChars_comp hc hdot, filter_append, hkeep c hc, ih]

theorem length_flatten_cut {cs : List (List UInt8)} :
    (cs.map cut).flatten.length ≤ (cs.filter (· ≠ [dot])).flatten.length ∧
      ((cs.map cut).flatten.length = (cs.filter (· ≠ [dot])).flatten.length →
        ∀ c ∈ cs, c.getLast? = some dot → c = [dot]) := by
  induction cs with
  | nil => exact ⟨le_rfl, fun _ c hc => absurd hc not_mem_nil⟩
  | cons c cs ih =>
    by_cases hone : c = [dot]
    · have hsame : ((c :: cs).map cut).flatten.length = (cs.map cut).flatten.length := by
        rw [hone]
        rfl
      rw [hsame, filter_cons_of_neg (by simp [hone])]
      refine ⟨ih.1, fun heq d hd => ?_⟩
      rcases mem_cons.mp hd with rfl | hd
      · exact fun _ => hone
      · exact ih.2 heq d hd
    · rw [filter_cons_of_pos (by simpa using hone), map_cons, flatten_cons,
        flatten_cons, length_append, length_append, cut]
      split_ifs with hdot
      · obtain ⟨b, rfl⟩ := getLast?_eq_some_iff.mp hdot
        rw [dropLast_concat, length_append, length_singleton]
        exact ⟨by omega, fun heq => absurd heq (by omega)⟩
      · refine ⟨by omega, fun heq d hd => ?_⟩
        rcases mem_cons.mp hd with rfl | hd
        · exact fun h => absurd h hdot
        · exact ih.2 (by omega) d hd

end

/-! ## Slashes in a row -/

section

variable {c tail s : List UInt8}

theorem infix_of_append {α : Type*} {x : α} {pat b l : List α} (hb : ∀ a ∈ b, a ≠ x)
    (h : x :: pat <:+: b ++ l) : x :: pat <:+: l := by
  induction b with
  | nil => exact h
  | cons a b ih =>
    rcases infix_cons_iff.mp h with hpre | hin
    · exact absurd (cons_prefix_cons.mp hpre).1.symm (hb a mem_cons_self)
    · exact ih (fun d hd => hb d (mem_cons_of_mem _ hd)) hin

theorem loose_slashes (h : Loose (slash :: s)) : Loose (s.dropWhile (· == slash)) := by
  have happ : slash :: s = (slash :: s.takeWhile (· == slash)) ++ s.dropWhile (· == slash) := by
    rw [cons_append, takeWhile_append_dropWhile]
  unfold Loose at h
  rw [happ] at h
  refine infix_of_append (fun a ha => ?_) h
  rcases mem_cons.mp ha with rfl | ha
  · decide
  · have := mem_takeWhile_imp ha
    rw [beq_iff_eq.mp this]
    decide

theorem loose_comp (hc : ∀ a ∈ c, a ≠ slash) (hdot : c.getLast? ≠ some dot) (h : Loose (c ++ tail)) :
    Loose tail := by
  induction c with
  | nil => exact h
  | cons a c ih =>
    have hnext : Loose (c ++ tail) := by
      rcases infix_cons_iff.mp h with hpre | hin
      · obtain ⟨ha, hnext⟩ := cons_prefix_cons.mp hpre
        cases c with
        | nil => exact absurd (congrArg some ha.symm) hdot
        | cons b c =>
          have hb : slash = b := (cons_prefix_cons.mp hnext).1
          exact absurd hb.symm (hc b (mem_cons_of_mem _ mem_cons_self))
      · exact hin
    cases c with
    | nil => exact hnext
    | cons b c =>
      rw [getLast?_cons_cons] at hdot
      exact ih (fun d hd => hc d (mem_cons_of_mem _ hd)) hdot hnext

theorem DotsAlone.slashes (h : DotsAlone (slash :: s)) : DotsAlone (s.dropWhile (· == slash)) := by
  unfold DotsAlone at *
  rwa [components_slashes] at h

theorem DotsAlone.comp (h : DotsAlone (c ++ tail)) (hne : c ≠ []) (hc : ∀ a ∈ c, a ≠ slash)
    (htail : Follows tail) : (c.getLast? = some dot → c = [dot]) ∧ DotsAlone tail ∧
      DotsAlone (tail.drop 1) := by
  unfold DotsAlone at *
  rw [components_comp hne hc htail] at h
  rw [components_tail htail]
  have hrest := fun d hd => h d (mem_cons_of_mem _ hd)
  exact ⟨h c mem_cons_self, hrest, hrest⟩

theorem normalizeChars_dot_slash (t : List UInt8) :
    normalizeChars ([dot] ++ slash :: t) = normalizeChars t :=
  normalizeChars_dotted (c := []) (fun _ h => nomatch h) (Or.inr ⟨t, rfl⟩)

theorem doubleSlash_of_loose (hdots : DotsAlone s) (h : Loose s) :
    [slash, slash] <:+: if s.head? = some slash then normalizeChars s else slash :: normalizeChars s := by
  induction s using path_induction with
  | nil => exact absurd (infix_nil.mp h) (cons_ne_nil _ _)
  | slashes s ih =>
    have hin := ih hdots.slashes (loose_slashes h)
    rw [if_neg (head?_dropWhile_ne s)] at hin
    rwa [if_pos (head?_cons), normalizeChars_slashes]
  | comp c tail hne hc htail ih ih' =>
    obtain ⟨hself, htaildots, hrestdots⟩ := hdots.comp hne hc htail
    rw [if_neg (head?_comp_ne hne hc tail)]
    by_cases hdot : c.getLast? = some dot
    · obtain rfl := hself hdot
      rcases htail with rfl | ⟨t, rfl⟩
      · exact absurd h (by decide)
      · rw [normalizeChars_dot_slash]
        cases t with
        | nil => exact absurd h (by decide)
        | cons b t =>
          by_cases hb : b = slash
          · -- the two slashes are next to each other at once
            rw [hb, normalizeChars_slashes]
            exact List.IsPrefix.isInfix ⟨normalizeChars (t.dropWhile (· == slash)), rfl⟩
          · have hloose : Loose (b :: t) := by
              refine infix_of_append (b := [slash]) (forall_mem_singleton.mpr (by decide)) ?_
              rcases infix_cons_iff.mp h with hpre | hin
              · have hhead := cons_prefix_cons.mp (cons_prefix_cons.mp hpre).2
                exact absurd (cons_prefix_cons.mp hhead.2).1.symm hb
              · exact hin
            have hhead : (b :: t).head? ≠ some slash := fun hs => hb (Option.some.inj hs)
            have hin := ih' hrestdots hloose
            rwa [drop_one, tail_cons, if_neg hhead] at hin
    · have hloose := loose_comp hc hdot h
      rcases htail with rfl | ⟨t, rfl⟩
      · exact absurd (infix_nil.mp hloose) (cons_ne_nil _ _)
      · have hin := ih htaildots hloose
        rw [if_pos head?_cons] at hin
        rw [normalizeChars_comp hc hdot]
        exact hin.trans ⟨slash :: c, [], by simp⟩

/-! ## The normal form -/

theorem names_comp (hne : c ≠ []) (hc : ∀ a ∈ c, a ≠ slash) (htail : Follows tail) :
    names (c ++ tail) = if c = [dot] then names tail else c :: names tail := by
  unfold names
  rw [components_comp hne hc htail]
  split_ifs with h
  · rw [filter_cons_of_neg (by simp [h])]
  · rw [filter_cons_of_pos (by simpa using h)]

theorem canonical_absolute (s : List UInt8) :
    canonical (slash :: s) = slash :: joined (names (slash :: s)) := by
  unfold canonical
  rw [if_pos head?_cons]
  rfl

theorem canonical_relative (h : s.head? ≠ some slash) : canonical s = joined (names s) := by
  unfold canonical
  rw [if_neg h, nil_append]

theorem normalizeChars_canonical (hdots : DotsAlone s) (h : ¬ Loose s) :
    normalizeChars s = canonical s ∨ normalizeChars s = canonical s ++ [slash] ∧ names s ≠ [] := by
  induction s using path_induction with
  | nil => exact Or.inl (by simp [normalizeChars, canonical, names, joined])
  | slashes s ih =>
    have hcanon : canonical (slash :: s) = slash :: canonical (s.dropWhile (· == slash)) := by
      rw [canonical_absolute, canonical_relative (head?_dropWhile_ne s), names_slashes]
    have hloose : ¬ Loose (s.dropWhile (· == slash)) := fun hl =>
      h (hl.trans ((dropWhile_suffix _).isInfix.trans (suffix_cons _ _).isInfix))
    rw [normalizeChars_slashes, hcanon, names_slashes]
    rcases ih hdots.slashes hloose with heq | ⟨heq, hnames⟩
    · exact Or.inl (by rw [heq])
    · exact Or.inr ⟨by rw [heq, cons_append], hnames⟩
  | comp c tail hne hc htail ih ih' =>
    obtain ⟨hself, htaildots, hrestdots⟩ := hdots.comp hne hc htail
    have hcanon := canonical_relative (head?_comp_ne hne hc tail)
    have hsuffix : tail <:+: c ++ tail := (suffix_append c tail).isInfix
    by_cases hdot : c.getLast? = some dot
    · obtain rfl := hself hdot
      rw [hcanon, names_comp hne hc htail, if_pos rfl]
      rcases htail with rfl | ⟨t, rfl⟩
      · have hchars : normalizeChars ([dot] ++ []) = normalizeChars [] :=
          normalizeChars_dotted (c := []) (fun _ h => absurd h not_mem_nil) (Or.inl rfl)
        rw [hchars]
        exact Or.inl (by simp [normalizeChars, names, joined])
      · have hhead : t.head? ≠ some slash := by
          intro hs
          obtain ⟨t, rfl⟩ := head?_eq_some_iff.mp hs
          exact h (List.IsPrefix.isInfix ⟨t, rfl⟩)
        have hrest := ih' hrestdots fun hl => h (hl.trans (suffix_append [dot, slash] t).isInfix)
        have hnames : names (slash :: t) = names t := by
          unfold names
          rw [components_cons_sep]
        rw [normalizeChars_dot_slash, hnames, ← canonical_relative hhead]
        exact hrest
    · have hdot' : c ≠ [dot] := fun heq => hdot (heq ▸ rfl)
      rw [hcanon, names_comp hne hc htail, if_neg hdot', normalizeChars_comp hc hdot]
      rcases htail with rfl | ⟨t, rfl⟩
      · exact Or.inl (by simp [normalizeChars, names, joined])
      · have htail' := ih htaildots fun hl => h (hl.trans hsuffix)
        rw [canonical_absolute] at htail'
        by_cases hnames : names (slash :: t) = []
        · -- the path ends with this component, and a slash
          rw [hnames] at htail' ⊢
          rcases htail' with heq | ⟨-, hn⟩
          · exact Or.inr ⟨by rw [heq, joined_singleton]; rfl, cons_ne_nil _ _⟩
          · exact absurd rfl hn
        · rw [joined_cons hnames]
          rcases htail' with heq | ⟨heq, -⟩
          · exact Or.inl (by rw [heq])
          · exact Or.inr ⟨by rw [heq, append_assoc], cons_ne_nil _ _⟩

end

section

variable {s : List UInt8}

theorem goodComp_of_names (hs : ∀ a ∈ s, a ≠ 0) (hdots : DotsAlone s) : ∀ c ∈ names s, GoodComp c := by
  intro c hc
  obtain ⟨hmem, hne⟩ := mem_filter.mp hc
  obtain ⟨hnil, hslash, hsub⟩ := mem_components slash hmem
  refine ⟨hnil, fun a ha => hs a (hsub a ha), fun a ha h => hslash (h ▸ ha), fun hdot => ?_⟩
  exact of_decide_eq_true hne (hdots c hmem hdot)

variable {cs : List (List UInt8)}

theorem components_joined (h : ∀ c ∈ cs, GoodComp c) : components slash (joined cs) = cs := by
  induction cs with
  | nil => exact components_nil slash
  | cons c cs ih =>
    have hc := h c mem_cons_self
    by_cases hcs : cs = []
    · rw [hcs, joined_singleton, components_of_forall slash hc.no_slash hc.ne_nil]
    · rw [joined_cons hcs, components_comp hc.ne_nil hc.no_slash (Or.inr ⟨_, rfl⟩), components_cons_sep,
        ih fun d hd => h d (mem_cons_of_mem _ hd)]

theorem head?_joined_of_good (h : ∀ c ∈ cs, GoodComp c) : (joined cs).head? ≠ some slash := by
  by_cases hcs : cs = []
  · rw [hcs]
    exact fun hs => nomatch hs
  · have hhead := head?_joined_ne h hcs []
    rwa [List.append_nil] at hhead

theorem no_doubleSlash_joined (h : ∀ c ∈ cs, GoodComp c) :
    ¬ [slash, slash] <:+: slash :: joined cs := by
  intro hin
  rcases infix_cons_iff.mp hin with hpre | hin
  · obtain ⟨t, ht⟩ := (cons_prefix_cons.mp hpre).2
    exact head?_joined_of_good h (ht ▸ rfl)
  · induction cs with
    | nil => exact absurd (infix_nil.mp hin) (cons_ne_nil _ _)
    | cons c cs ih =>
      have hc := (h c mem_cons_self).no_slash
      have hrest : ∀ d ∈ cs, GoodComp d := fun d hd => h d (mem_cons_of_mem _ hd)
      by_cases hcs : cs = []
      · rw [hcs, joined_singleton, ← List.append_nil c] at hin
        exact absurd (infix_nil.mp (infix_of_append hc hin)) (cons_ne_nil _ _)
      · rw [joined_cons hcs] at hin
        rcases infix_cons_iff.mp (infix_of_append hc hin) with hpre | hin
        · obtain ⟨t, ht⟩ := (cons_prefix_cons.mp hpre).2
          exact head?_joined_of_good hrest (ht ▸ rfl)
        · exact ih hrest (infix_cons_iff.mpr (Or.inr hin)) hin

theorem getLast?_canonical (h : ∀ c ∈ names s, GoodComp c) (hlast : (canonical s).getLast? = some slash) :
    canonical s = [slash] ∧ names s = [] := by
  have hjoined := getLast?_joined_ne h
  by_cases hnames : names s = []
  · refine ⟨?_, hnames⟩
    unfold canonical at hlast ⊢
    rw [hnames] at hlast ⊢
    split_ifs at hlast ⊢
    · rfl
    · cases hlast
  · unfold canonical at hlast
    rw [getLast?_append_ne_nil (joined_ne_nil h hnames)] at hlast
    exact absurd hlast hjoined

theorem normalizes_canonical (hs : ∀ a ∈ s, a ≠ 0) (hdots : DotsAlone s) :
    Normalizes s (canonical s) := by
  have hgood := goodComp_of_names hs hdots
  have hcomp : components slash (canonical s) = names s := by
    unfold canonical
    split_ifs
    · exact (components_cons_sep slash _).trans (components_joined hgood)
    · exact components_joined hgood
  have hinfix : canonical s <:+: slash :: joined (names s) := by
    unfold canonical
    split_ifs
    · exact infix_refl _
    · exact (suffix_cons slash _).isInfix
  refine ⟨?_, fun hin => no_doubleSlash_joined hgood (hin.trans hinfix), fun hdot => ?_,
    fun hlast => (getLast?_canonical hgood hlast).1, hcomp⟩
  · unfold canonical
    split_ifs with h
    · exact iff_of_true rfl h
    · exact iff_of_false (head?_joined_of_good hgood) h
  · rw [hcomp] at hdot
    exact absurd (mem_filter.mp hdot).2 (by simp)

theorem normalize_of_chars_canonical {t : List UInt8} (h : ∀ c ∈ names s, GoodComp c)
    (hchars : normalizeChars t = canonical s) : normalize t = canonical s := by
  by_cases hlast : (canonical s).getLast? = some slash
  · have hroot := (getLast?_canonical h hlast).1
    unfold normalize
    rw [hchars, hroot]
    rfl
  · rw [normalize_of_last_ne (by rwa [hchars]), hchars]

theorem normalize_canonical (hs : ∀ a ∈ s, a ≠ 0) (hdots : DotsAlone s) :
    normalize (canonical s) = canonical s := by
  have hgood := goodComp_of_names hs hdots
  have hjoined : normalizeChars (joined (names s)) = joined (names s) := by
    have h := normalizeChars_joined hgood []
    rwa [List.append_nil, show normalizeChars [] = [] by rw [normalizeChars], List.append_nil] at h
  refine normalize_of_chars_canonical hgood ?_
  unfold canonical
  split_ifs
  · exact (normalizeChars_slash (head?_joined_of_good hgood)).trans (congrArg _ hjoined)
  · exact hjoined

theorem normalize_cases (s : List UInt8) : normalizeChars s = normalize s ∨
    normalizeChars s = normalize s ++ [slash] ∧ normalize s ≠ [] := by
  by_cases h : 1 < (normalizeChars s).length ∧ (normalizeChars s).getLast? = some slash
  · obtain ⟨out, hout⟩ := getLast?_eq_some_iff.mp h.2
    have hne : out ≠ [] := by
      rintro rfl
      rw [hout] at h
      exact absurd h.1 (by decide)
    rw [normalize_concat hout hne]
    exact Or.inr ⟨hout, hne⟩
  · exact Or.inl (if_neg h).symm

theorem head?_normalize (s : List UInt8) : (normalize s).head? = (normalizeChars s).head? := by
  rcases normalize_cases s with h | ⟨h, hne⟩
  · rw [h]
  · obtain ⟨a, out, hout⟩ := exists_cons_of_ne_nil hne
    rw [h, hout]
    rfl

theorem filter_normalize (s : List UInt8) :
    (normalize s).filter (· ≠ slash) = (normalizeChars s).filter (· ≠ slash) := by
  rcases normalize_cases s with h | ⟨h, -⟩
  · rw [h]
  · rw [h, filter_append]
    exact (List.append_nil _).symm

theorem names_eq_nil (hdots : DotsAlone s) (h : (normalizeChars s).filter (· ≠ slash) = []) :
    names s = [] := by
  rw [filter_normalizeChars, flatten_eq_nil_iff] at h
  refine filter_eq_nil_iff.mpr fun c hc hdot => ?_
  have hcut := h (cut c) (mem_map_of_mem hc)
  have hlast : c.getLast? ≠ some dot := fun hlast => of_decide_eq_true hdot (hdots c hc hlast)
  rw [cut, if_neg hlast] at hcut
  exact (mem_components slash hc).1 hcut

theorem looseCount_slash (s : List UInt8) : looseCount (slash :: s) = looseCount s := by
  rw [looseCount, if_neg (fun h => absurd (cons_prefix_cons.mp h).1 (by decide)), Nat.zero_add]

theorem looseCount_dropWhile (s : List UInt8) : looseCount (s.dropWhile (· == slash)) = looseCount s := by
  induction s with
  | nil => rfl
  | cons a s ih =>
    by_cases ha : a = slash
    · rw [ha, dropWhile_cons_of_pos (by simp), ih, looseCount_slash]
    · rw [dropWhile_cons_of_neg (by simpa using ha)]

/-- Of a path without names only slashes are left: the first one, and one for each `./` with a slash behind
it. -/
theorem normalizeChars_of_names (h : names s = []) :
    normalizeChars s = List.replicate (looseCount s + if s.head? = some slash then 1 else 0) slash := by
  induction s using path_induction with
  | nil => simp [normalizeChars, looseCount]
  | slashes s ih =>
    rw [names_slashes] at h
    rw [normalizeChars_slashes, ih h, if_neg (head?_dropWhile_ne s), looseCount_dropWhile, looseCount_slash,
      head?_cons, if_pos rfl]
    rfl
  | comp c tail hne hc htail _ ih =>
    rw [names_comp hne hc htail] at h
    split_ifs at h with hdot
    subst hdot
    rcases htail with rfl | ⟨t, rfl⟩
    · simp [normalizeChars, looseCount, dot, slash]
    · have hnames : names t = [] := by rwa [names, components_cons_sep] at h
      have hcount : looseCount (dot :: slash :: t) =
          (if t.head? = some slash then 1 else 0) + looseCount t := by
        rw [looseCount, looseCount_slash]
        refine congrArg (· + looseCount t) (if_congr ?_ rfl rfl)
        cases t <;> simp [cons_prefix_cons, eq_comm]
      have hhead : (dot :: slash :: t).head? ≠ some slash := by
        rw [head?_cons]
        decide
      rw [normalizeChars_dot_slash, singleton_append, if_neg hhead, Nat.add_zero, hcount, Nat.add_comm]
      exact ih hnames

theorem normalize_eq_canonical (hs : ∀ a ∈ s, a ≠ 0) (h : Plain s) : normalize s = canonical s := by
  have hgood := goodComp_of_names hs h.dots
  rcases h.slashes with hloose | ⟨habs, hnone, hcount⟩
  · rcases normalizeChars_canonical h.dots hloose with heq | ⟨heq, hnames⟩
    · exact normalize_of_chars_canonical hgood heq
    · exact normalize_concat heq (append_ne_nil_of_right_ne_nil _ (joined_ne_nil hgood hnames))
  · have hchars : normalizeChars s = [slash] ++ [slash] := by
      rw [normalizeChars_of_names hnone, if_pos habs, hcount]
      rfl
    have hroot : normalize s = [slash] := normalize_concat hchars (cons_ne_nil _ _)
    rw [hroot, canonical, if_pos habs, hnone]
    rfl

theorem plain_of_normalizes (h : Normalizes s (normalize s)) : Plain s := by
  have hdots : DotsAlone s := by
    refine length_flatten_cut.2 (congrArg List.length ?_)
    rw [← filter_normalizeChars, ← filter_normalize, ← flatten_components, h.components]
    rfl
  -- two slashes in a row are left only if they are all there is
  have hdouble : [slash, slash] <:+: normalizeChars s → normalizeChars s = [slash, slash] := by
    intro hin
    rcases normalize_cases s with heq | ⟨heq, -⟩
    · exact absurd (heq ▸ hin) h.no_empty
    · rw [heq] at hin ⊢
      rcases infix_concat_iff.mp hin with ⟨t, ht⟩ | hin
      · have hlast : normalize s = t ++ [slash] :=
          (append_inj' (ht.symm.trans (append_assoc t [slash] [slash]).symm) rfl).1
        rw [h.no_trailing (by rw [hlast, getLast?_concat])]
        rfl
      · exact absurd hin h.no_empty
  refine ⟨hdots, (em (Loose s)).elim (fun hloose => Or.inr ?_) Or.inl⟩
  have hin := doubleSlash_of_loose hdots hloose
  by_cases habs : s.head? = some slash
  · rw [if_pos habs] at hin
    have hchars := hdouble hin
    have hnone : names s = [] := names_eq_nil hdots (by rw [hchars]; rfl)
    have hlen := congrArg List.length ((normalizeChars_of_names hnone).symm.trans hchars)
    rw [if_pos habs, length_replicate] at hlen
    exact ⟨habs, hnone, Nat.succ.inj hlen⟩
  · rw [if_neg habs] at hin
    have hhead : (normalizeChars s).head? = some slash := by
      rcases infix_cons_iff.mp hin with hpre | hin
      · obtain ⟨t, ht⟩ := (cons_prefix_cons.mp hpre).2
        rw [← ht]
        rfl
      · rw [hdouble hin]
        rfl
    rw [← head?_normalize] at hhead
    exact absurd (h.absolute.mp hhead) habs

end

/-! ## `path_normalize` -/

theorem pathNormalize_self {mem : List UInt8} {p : ℕ} {s : CStr} (hs : memStr mem p = some s)
    (hself : normalize s.chars = s.chars) : pathNormalize mem p p = some mem := by
  obtain ⟨rest, hdrop⟩ := memStr_eq_some_iff.mp hs
  obtain ⟨mem', rest', hrun, -, htake, hdrop', htail⟩ := pathNormalize_spec s.no_nul hdrop
    (Or.inl (Nat.le_refl p)) (lt_length_of_drop hdrop)
  have hrest : rest' = rest := by
    rw [hself] at hdrop'
    rw [← drop_behind hdrop', ← drop_behind hdrop]
    exact htail _ (by omega) (by omega)
  have hsame : mem' = mem := by
    rw [← take_append_drop p mem', ← take_append_drop p mem, htake, hdrop', hdrop, hself, hrest]
  rw [hrun, hsame]

/-- `path_normalize` returns for each path, in place or to a buffer that has room for the path. The
path is normalized as it should be, and left as it is when it is normalized again, exactly if each
component that ends in a dot is `.` and no `./` has another slash behind it (or one has in an absolute path
without names). -/
theorem path_normalize_iff {mem : List UInt8} {path normalized : ℕ} {s : CStr}
    (hs : memStr mem path = some s)
    (hbuf : normalized ≤ path ∨
      path + s.chars.length < normalized ∧ normalized + s.chars.length < mem.length) :
    ∃ mem' out, pathNormalize mem path normalized = some mem' ∧ memStr mem' normalized = some out ∧
      (Normalizes s.chars out.chars ∧ pathNormalize mem' normalized normalized = some mem' ↔
        Plain s.chars) := by
  obtain ⟨mem', hrun, hout⟩ := pathNormalize_memStr hs hbuf
  refine ⟨mem', _, hrun, hout, ?_⟩
  constructor
  · exact fun h => plain_of_normalizes h.1
  · intro h
    have hcanon := normalize_eq_canonical s.no_nul h
    have hright : Normalizes s.chars (normalize s.chars) :=
      hcanon ▸ normalizes_canonical s.no_nul h.dots
    have hself : normalize (normalize s.chars) = normalize s.chars := by
      rw [hcanon, normalize_canonical s.no_nul h.dots]
    exact ⟨hright, pathNormalize_self hout hself⟩

/-- `..` becomes `.`, and `.//a` becomes `/a`. -/
theorem path_normalize_dotdot :
    (∃ mem' out, pathNormalize [46, 46, 0] 0 0 = some mem' ∧ memStr mem' 0 = some out ∧
      out.chars = [46] ∧ ¬ Normalizes [46, 46] out.chars) ∧
    ∃ mem' out, pathNormalize [46, 47, 47, 97, 0] 0 0 = some mem' ∧ memStr mem' 0 = some out ∧
      out.chars = [47, 97] ∧ ¬ Normalizes [46, 47, 47, 97] out.chars := by
  refine ⟨⟨[46, 0, 0], strAt [46, 0, 0] 0, by decide, rfl, by decide, fun h => ?_⟩,
    ⟨[47, 97, 0, 97, 0], strAt [47, 97, 0, 97, 0] 0, by decide, rfl, by decide, fun h => ?_⟩⟩
  · exact absurd h.components (by decide)
  · exact absurd h.absolute (by decide)

/-- `./a//..b/`. -/
def samplePath : List UInt8 := [46, 47, 97, 47, 47, 46, 46, 98, 47, 0]

/-- It becomes `a/..b`. -/
theorem path_normalize_iff_sample :
    memStr samplePath 0 = some (strAt samplePath 0) ∧
    ∃ mem' out, pathNormalize samplePath 0 0 = some mem' ∧ memStr mem' 0 = some out ∧
      Normalizes (strAt samplePath 0).chars out.chars := by
  have hs : memStr samplePath 0 = some (strAt samplePath 0) := rfl
  obtain ⟨mem', out, hrun, hout, hiff⟩ := path_normalize_iff hs (Or.inl (Nat.le_refl 0))
  have hplain : Plain (strAt samplePath 0).chars :=
    ⟨by unfold DotsAlone; decide, Or.inl (by decide)⟩
  exact ⟨hs, mem', out, hrun, hout, (hiff.mpr hplain).1⟩

end LykOS.Pathname
