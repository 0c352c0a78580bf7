import LykOS.Mm.Kmem.Slabs

/-!
# What the calls of a cache leave alone

`Grows pages s s'` says that what led from `s` to `s'` wrote links only into pages that it took, and made
slabs only of these. All functions of `mm/kmem.c` are so, so the objects that were there before a call keep
their contents, and caches with pages of their own do not disturb each other.
-/

namespace LykOS.Kmem

open Function Option

structure Grows (pages : ℕ → ℕ) (s s' : KmemCache) : Prop where
  objectSize : s'.objectSize = s.objectSize
  taken : s.taken ≤ s'.taken
  slabs : ∀ b ∈ s'.slabsAll, b ∈ s.slabsAll ∨ ∃ k, s.taken ≤ k ∧ b = pages k
  word : ∀ a, (∀ k, s.taken ≤ k → a < pages k ∨ pages k + archPageGran ≤ a) → s'.word a = s.word a

section

variable {pages : ℕ → ℕ} {s t u : KmemCache}

theorem Grows.of_eq (hsize : t.objectSize = s.objectSize) (htaken : s.taken ≤ t.taken)
    (hslabs : t.slabs = s.slabs) (hword : t.word = s.word) : Grows pages s t where
  objectSize := hsize
  taken := htaken
  slabs b hb := by
    unfold KmemCache.slabsAll at hb ⊢
    rw [hslabs] at hb
    exact Or.inl hb
  word a _ := by rw [hword]

theorem Grows.refl (s : KmemCache) : Grows pages s s := Grows.of_eq rfl le_rfl rfl rfl

theorem Grows.trans (h : Grows pages s t) (h' : Grows pages t u) : Grows pages s u where
  objectSize := h'.objectSize.trans h.objectSize
  taken := h.taken.trans h'.taken
  slabs b hb := by
    rcases h'.slabs b hb with hb | ⟨k, hk, he⟩
    · exact h.slabs b hb
    · exact Or.inr ⟨k, h.taken.trans hk, he⟩
  word a ha := by
    rw [h'.word a fun k hk => ha k (h.taken.trans hk), h.word a ha]

theorem Grows.sizeOk (h : Grows pages s t) (hs : SizeOk s.objectSize) : SizeOk t.objectSize := by
  rw [h.objectSize]
  exact hs

/-! ## Slabs -/

theorem mem_slabsAll_update {i : ℕ} {l : List ℕ} {P : ℕ → Prop}
    (h : ∀ x ∈ l, x ∈ s.slabs i ∨ P x) :
    ∀ x ∈ { s with slabs := update s.slabs i l }.slabsAll, x ∈ s.slabsAll ∨ P x := by
  have hmem : ∀ j, ∀ x ∈ update s.slabs i l j, x ∈ s.slabs j ∨ P x := by
    intro j x hx
    by_cases hj : j = i
    · subst hj
      rw [update_self] at hx
      exact h x hx
    · rw [update_of_ne hj] at hx
      exact Or.inl hx
  intro x hx
  rcases List.mem_append.mp hx with hx | hx
  · exact (hmem _ x hx).imp_left (List.mem_append_left _)
  · exact (hmem _ x hx).imp_left (List.mem_append_right _)

theorem slabAppend_mem {i b : ℕ} (h : s.slabAppend i b = some t) :
    ∃ l, t = { s with slabs := l } ∧ ∀ x ∈ t.slabsAll, x ∈ s.slabsAll ∨ x = b := by
  obtain ⟨l, hl, rfl⟩ := map_eq_some_iff.mp h
  rw [Pool.append, ite_none_right_eq_some] at hl
  obtain ⟨-, hl⟩ := hl
  cases hl
  refine ⟨_, rfl, mem_slabsAll_update fun x hx => ?_⟩
  rwa [List.mem_append, List.mem_singleton] at hx

theorem slabRemove_mem {i b : ℕ} (h : s.slabRemove i b = some t) :
    ∃ l, t = { s with slabs := l } ∧ ∀ x ∈ t.slabsAll, x ∈ s.slabsAll := by
  obtain ⟨l, hl, rfl⟩ := map_eq_some_iff.mp h
  rw [Pool.remove, ite_none_right_eq_some] at hl
  obtain ⟨-, hl⟩ := hl
  cases hl
  refine ⟨_, rfl, fun x hx => ?_⟩
  have hor := mem_slabsAll_update (P := fun _ => False)
    (fun y hy => Or.inl (List.mem_of_mem_erase hy)) x hx
  exact hor.resolve_right id

theorem takeObject_grows {slab obj : ℕ} (hslab : slab ∈ s.slabsAll)
    (h : takeObject s slab = some (obj, t)) : Grows pages s t := by
  simp only [takeObject, bind_eq_bind, bind_eq_some_iff] at h
  obtain ⟨_, -, h⟩ := h
  split_ifs at h
  · simp only [bind_eq_some_iff] at h
    obtain ⟨s₁, hrem, s₂, happ, h⟩ := h
    cases h
    obtain ⟨l₁, rfl, hmem₁⟩ := slabRemove_mem hrem
    obtain ⟨l₂, rfl, hmem₂⟩ := slabAppend_mem happ
    refine ⟨rfl, le_rfl, fun b hb => Or.inl ?_, fun _ _ => rfl⟩
    rcases hmem₂ b hb with hb | rfl
    · exact hmem₁ b hb
    · exact hslab
  · cases h
    exact Grows.of_eq rfl le_rfl rfl rfl

section

variable (hp : FreshPages pages)

include hp

theorem cacheMakeSlab_grows (hs : SizeOk s.objectSize) : Grows pages s (cacheMakeSlab pages s).2 := by
  obtain ⟨w, f, hmk, -, -, hw⟩ := cacheMakeSlab_spec hp hs
  rw [hmk]
  refine ⟨rfl, Nat.le_succ _, fun b hb => Or.inl hb, fun a ha => hw a fun j hj he => ?_⟩
  have hin : pages s.taken + sizeofKmemSlab ≤ a ∧ a + s.objectSize ≤ pages s.taken + archPageGran :=
    he ▸ object_in_slab (pages s.taken) hj
  have hpos := hs.1
  have hout := ha s.taken le_rfl
  omega

variable {i m obj : ℕ}

theorem makeSlab_grows (hs : SizeOk s.objectSize)
    (h : (cacheMakeSlab pages s).2.slabAppend i (cacheMakeSlab pages s).1 = some t) :
    Grows pages s t := by
  obtain ⟨l, hl, hmem⟩ := slabAppend_mem h
  have hmk := cacheMakeSlab_grows hp hs
  refine ⟨?_, ?_, fun b hb => ?_, fun a ha => ?_⟩
  · rw [hl]
    exact hmk.objectSize
  · rw [hl]
    exact hmk.taken
  · rcases hmem b hb with hb | rfl
    · exact hmk.slabs b hb
    · exact Or.inr ⟨s.taken, le_rfl, rfl⟩
  · rw [hl]
    exact hmk.word a ha

theorem cacheAllocFromSlabs_grows (hs : SizeOk s.objectSize)
    (h : cacheAllocFromSlabs pages s = some (obj, t)) : Grows pages s t := by
  have htake : ∀ {s₁ : KmemCache},
      ((s₁.slabs slabsPartial).head?.bind fun slab => takeObject s₁ slab) = some (obj, t) →
        Grows pages s₁ t := by
    intro s₁ h
    obtain ⟨slab, hhead, h⟩ := bind_eq_some_iff.mp h
    exact takeObject_grows (List.mem_append_right _ (List.mem_of_head? hhead)) h
  simp only [cacheAllocFromSlabs, bind_eq_bind] at h
  split_ifs at h
  · obtain ⟨s₁, happ, h⟩ := bind_eq_some_iff.mp h
    exact (makeSlab_grows hp hs happ).trans (htake h)
  · exact htake h

/-! ## Magazines -/

theorem populateMagazine_grows (m n i : ℕ) (s : KmemCache) (hs : SizeOk s.objectSize)
    (h : populateMagazine pages m n i s = some t) : Grows pages s t := by
  induction n generalizing i s with
  | zero =>
    cases h
    exact Grows.refl _
  | succ n ih =>
    simp only [populateMagazine, bind_eq_bind, bind_eq_some_iff] at h
    obtain ⟨⟨obj, s₁⟩, halloc, h⟩ := h
    have h₁ := cacheAllocFromSlabs_grows hp hs halloc
    have hset : Grows pages s₁ (s₁.setObject m i obj) := Grows.of_eq rfl le_rfl rfl rfl
    exact (h₁.trans hset).trans (ih (i + 1) _ (h₁.sizeOk hs) h)

theorem cacheMakeMagazine_grows (hs : SizeOk s.objectSize) {populate : Bool}
    (h : cacheMakeMagazine pages s populate = some (m, t)) : Grows pages s t := by
  have htake : Grows pages s { s with taken := s.taken + 1 } :=
    Grows.of_eq rfl (Nat.le_succ _) rfl rfl
  simp only [cacheMakeMagazine, bind_eq_bind] at h
  split_ifs at h
  · obtain ⟨s₁, hpop, h⟩ := bind_eq_some_iff.mp h
    cases h
    have hcount : Grows pages s₁ (s₁.setCount (pages s.taken) magSize) :=
      Grows.of_eq rfl le_rfl rfl rfl
    exact htake.trans ((populateMagazine_grows hp _ _ _ _ (htake.sizeOk hs) hpop).trans hcount)
  · cases h
    exact htake.trans (Grows.of_eq rfl le_rfl rfl rfl)

theorem initCpus_grows (n i : ℕ) (s : KmemCache) (hs : SizeOk s.objectSize)
    (h : initCpus pages n i s = some t) : Grows pages s t := by
  induction n generalizing i s with
  | zero =>
    cases h
    exact Grows.refl _
  | succ n ih =>
    simp only [initCpus, bind_eq_bind, bind_eq_some_iff] at h
    obtain ⟨⟨loaded, s₁⟩, hfull, ⟨previous, s₂⟩, hempty, h⟩ := h
    have h₁ := cacheMakeMagazine_grows hp hs hfull
    have h₂ := h₁.trans (cacheMakeMagazine_grows hp (h₁.sizeOk hs) hempty)
    have hset : Grows pages s₂ (s₂.setCpu i loaded previous) := Grows.of_eq rfl le_rfl rfl rfl
    exact (h₂.trans hset).trans (ih (i + 1) _ (h₂.sizeOk hs) h)

/-! ## The interface -/

theorem kmemCacheIntialize_grows {memory : KmemCache} {size : ℕ} (hs : SizeOk size)
    (h : kmemCacheIntialize pages memory size = some t) :
    Grows pages { memory with objectSize := size, slabs := fun _ => [], magazines := fun _ => [] } t :=
  initCpus_grows hp _ _ _ hs h

omit hp in
theorem magPop_grows (h : s.magPop m = some (obj, t)) : Grows pages s t := by
  simp only [KmemCache.magPop, ite_none_left_eq_some] at h
  obtain ⟨-, h⟩ := h
  cases h
  exact Grows.of_eq rfl le_rfl rfl rfl

omit hp in
theorem magPush_grows (h : s.magPush m obj = some t) : Grows pages s t := by
  simp only [KmemCache.magPush, ite_none_right_eq_some] at h
  obtain ⟨-, h⟩ := h
  cases h
  exact Grows.of_eq rfl le_rfl rfl rfl

omit hp in
theorem magAppend_grows (h : s.magAppend i m = some t) : Grows pages s t := by
  obtain ⟨l, -, rfl⟩ := map_eq_some_iff.mp h
  exact Grows.of_eq rfl le_rfl rfl rfl

omit hp in
theorem magRemove_grows (h : s.magRemove i m = some t) : Grows pages s t := by
  obtain ⟨l, -, rfl⟩ := map_eq_some_iff.mp h
  exact Grows.of_eq rfl le_rfl rfl rfl

omit hp in
theorem setCpu_grows (s : KmemCache) (cpu loaded previous : ℕ) :
    Grows pages s (s.setCpu cpu loaded previous) := Grows.of_eq rfl le_rfl rfl rfl

theorem kmemAllocCache_grows (hs : SizeOk s.objectSize) {cpu : ℕ}
    (h : kmemAllocCache pages s cpu = some (obj, t)) : Grows pages s t := by
  simp only [kmemAllocCache, bind_eq_bind, bind_eq_some_iff] at h
  obtain ⟨_, -, h⟩ := h
  split_ifs at h
  · exact magPop_grows h
  · obtain ⟨_, -, h⟩ := bind_eq_some_iff.mp h
    exact (setCpu_grows s _ _ _).trans (magPop_grows h)
  · obtain ⟨_, -, h⟩ := bind_eq_some_iff.mp h
    split at h
    · obtain ⟨s₁, hrem, h⟩ := bind_eq_some_iff.mp h
      obtain ⟨s₂, happ, h⟩ := bind_eq_some_iff.mp h
      have h₂ : Grows pages s s₂ := (magRemove_grows hrem).trans (magAppend_grows happ)
      exact h₂.trans ((setCpu_grows s₂ _ _ _).trans (magPop_grows h))
    · exact cacheAllocFromSlabs_grows hp hs h

theorem kmemFreeCache_grows (hs : SizeOk s.objectSize) {cpu : ℕ}
    (h : kmemFreeCache pages s cpu obj = some t) : Grows pages s t := by
  simp only [kmemFreeCache, bind_eq_bind, bind_eq_some_iff] at h
  obtain ⟨_, -, h⟩ := h
  split_ifs at h
  · exact magPush_grows h
  · exact (setCpu_grows s _ _ _).trans (magPush_grows h)
  · obtain ⟨s₁, happ, h⟩ := bind_eq_some_iff.mp h
    have h₁ : Grows pages s s₁ := magAppend_grows happ
    have hload : ∀ (s₂ : KmemCache) (m : ℕ),
        Grows pages s₂ ((s₂.setCpu cpu m (s.cpuCache cpu).loaded).setCount m 0) :=
      fun _ _ => Grows.of_eq rfl le_rfl rfl rfl
    split at h
    · obtain ⟨s₂, hrem, h⟩ := bind_eq_some_iff.mp h
      exact h₁.trans ((magRemove_grows hrem).trans ((hload s₂ _).trans (magPush_grows h)))
    · obtain ⟨⟨m, s₂⟩, hmake, h⟩ := bind_eq_some_iff.mp h
      have h₂ := cacheMakeMagazine_grows hp (h₁.sizeOk hs) hmake
      exact h₁.trans (h₂.trans ((hload s₂ m).trans (magPush_grows h)))

end

end

end LykOS.Kmem
