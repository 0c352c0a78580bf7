import LykOS.Lib.Run
import LykOS.Mm.Kmem.Magazines

/-!
# Runs of a cache

A world is a cache with the objects that its users hold. From an initialised cache, every run keeps
`CacheInv` (`step_inv`), so no object is handed out twice and outstanding objects do not overlap
(`kmem_exclusive`). A call on the depot path of `kmem_free_cache` loses objects for good, and nothing
else does: a run is conserving exactly when it takes no such call (`kmem_conserved_iff`).
-/

namespace LykOS.Kmem

open Chain Run Function List
open Option hiding guard

/-! ## Initialisation -/

/-- What filling magazines does not touch. -/
structure SameCpus (s s' : KmemCache) : Prop where
  objectSize : s'.objectSize = s.objectSize
  magazines : s'.magazines = s.magazines
  cpuCache : s'.cpuCache = s.cpuCache

theorem SameCpus.trans {s t u : KmemCache} (h : SameCpus s t) (h' : SameCpus t u) : SameCpus s u :=
  ⟨h'.objectSize.trans h.objectSize, h'.magazines.trans h.magazines, h'.cpuCache.trans h.cpuCache⟩

section Init

variable {pages : ℕ → ℕ} (hp : FreshPages pages) {size : ℕ}

include hp in
theorem populateMagazine_spec (m : ℕ) {others : List ℕ} (n i : ℕ) (s : KmemCache) (fl : ℕ → List ℕ)
    (held : List ℕ) (h : SlabInv pages s fl others held) :
    ∃ s' fl', populateMagazine pages m n i s = some s' ∧
      SlabInv pages s' fl' others ((List.range' i n).map (s'.mag m).objects ++ held) ∧
      SameCpus s s' ∧ (∀ a, a ≠ m → s'.mag a = s.mag a) ∧
      ∀ j < i, (s'.mag m).objects j = (s.mag m).objects j := by
  induction n generalizing i s fl held with
  | zero => exact ⟨s, fl, rfl, h, ⟨rfl, rfl, rfl⟩, fun _ _ => rfl, fun _ _ => rfl⟩
  | succ n ih =>
    obtain ⟨obj, s₁, fl₁, heq, h₁, hsame⟩ := h.allocFromSlabs hp
    obtain ⟨s', fl', heq', h', hcpus, hother, hkeep⟩ :=
      ih (i + 1) (s₁.setObject m i obj) fl₁ (obj :: held) (h₁.congr rfl rfl rfl rfl rfl)
    have hmag : (s₁.setObject m i obj).mag m =
        ⟨(s.mag m).count, update (s.mag m).objects i obj⟩ := by
      unfold KmemCache.setObject
      simp only [update_self, hsame.mag]
    have hobj : (s'.mag m).objects i = obj := by
      rw [hkeep i (Nat.lt_succ_self i), hmag]
      exact update_self _ _ _
    refine ⟨s', fl', ?_, ?_, ?_, ?_, ?_⟩
    · unfold populateMagazine
      simp only [heq, bind_eq_bind, Option.bind_some]
      exact heq'
    · rw [range'_succ, map_cons, hobj]
      exact h'.held_perm perm_middle
    · exact ⟨hcpus.1.trans hsame.objectSize, hcpus.2.trans hsame.magazines, hcpus.3.trans hsame.cpuCache⟩
    · intro a ha
      rw [hother a ha, ← hsame.mag]
      exact update_of_ne ha _ _
    · intro j hj
      rw [hkeep j (by omega), hmag]
      exact update_of_ne (by omega) _ _

include hp in
theorem cacheMakeMagazine_spec (populate : Bool) {s : KmemCache} {fl : ℕ → List ℕ}
    {others held : List ℕ} (h : SlabInv pages s fl others held) :
    ∃ m s' fl', cacheMakeMagazine pages s populate = some (m, s') ∧
      SlabInv pages s' fl' (m :: others) (s'.contents m ++ held) ∧ SameCpus s s' ∧
      (∀ a, a ≠ m → s'.mag a = s.mag a) ∧ (s'.mag m).count ≤ magSize := by
  have h₁ := h.takePage hp
  set m := pages s.taken with hm
  cases populate with
  | true =>
    obtain ⟨s₂, fl₂, heq, h₂, hcpus, hother, -⟩ := populateMagazine_spec hp m magSize 0 _ fl held h₁
    have hmag : (s₂.setCount m magSize).mag m = ⟨magSize, (s₂.mag m).objects⟩ :=
      update_self _ _ _
    refine ⟨m, s₂.setCount m magSize, fl₂, ?_, ?_, ⟨hcpus.1, hcpus.2, hcpus.3⟩, ?_, ?_⟩
    · unfold cacheMakeMagazine
      simp only [← hm, if_true, heq, bind_eq_bind, Option.bind_some, Option.pure_def]
    · unfold KmemCache.contents
      rw [hmag, range_eq_range']
      exact h₂.congr rfl rfl rfl rfl rfl
    · intro a ha
      rw [← show s₂.mag a = s.mag a from hother a ha]
      exact update_of_ne ha _ _
    · rw [hmag]
  | false =>
    set s₂ : KmemCache := { s with
      taken := s.taken + 1
      mag := update s.mag m { s.mag m with objects := fun _ => 0 } } with hs₂
    have hmag : (s₂.setCount m 0).mag m = ⟨0, (s₂.mag m).objects⟩ := update_self _ _ _
    refine ⟨m, s₂.setCount m 0, fl, ?_, ?_, ⟨rfl, rfl, rfl⟩, ?_, ?_⟩
    · unfold cacheMakeMagazine
      rfl
    · unfold KmemCache.contents
      rw [hmag]
      exact h₁.congr rfl rfl rfl rfl rfl
    · intro a ha
      have h1 : (s₂.setCount m 0).mag a = s₂.mag a := update_of_ne ha _ _
      have h2 : s₂.mag a = s.mag a := update_of_ne ha _ _
      rw [h1, h2]
    · rw [hmag]
      exact Nat.zero_le _

include hp in
theorem CacheInv.addCpu {i : ℕ} {s : KmemCache} {fl : ℕ → List ℕ} {ms : List ℕ}
    (h : CacheInv pages size i s fl [] [] ms) :
    ∃ l s₁ p s₂ fl' ms', cacheMakeMagazine pages s true = some (l, s₁) ∧
      cacheMakeMagazine pages s₁ false = some (p, s₂) ∧ l ≠ p ∧ SameCpus s s₂ ∧
      CacheInv pages size (i + 1) (s₂.setCpu i l p) fl' [] [] ms' := by
  obtain ⟨l, s₁, fl₁, heq₁, h₁, hcpus₁, hmag₁, hle₁⟩ := cacheMakeMagazine_spec hp true h.slab
  obtain ⟨p, s₂, fl₂, heq₂, h₂, hcpus₂, hmag₂, hle₂⟩ := cacheMakeMagazine_spec hp false h₁
  have hnd : (p :: l :: ms).Nodup := (nodup_append.mp h₂.nodup).1
  have hpl : p ≠ l := fun e => (nodup_cons.mp hnd).1 (e ▸ mem_cons_self)
  have hpm : p ∉ ms := fun hm => (nodup_cons.mp hnd).1 (mem_cons_of_mem _ hm)
  have hlm : l ∉ ms := (nodup_cons.mp (nodup_cons.mp hnd).2).1
  have hold : ∀ a ∈ ms, s₂.mag a = s.mag a := fun a ha =>
    (hmag₂ a (ne_of_mem_of_not_mem ha hpm)).trans (hmag₁ a (ne_of_mem_of_not_mem ha hlm))
  have hl : s₂.mag l = s₁.mag l := hmag₂ l hpl.symm
  have hcpus := hcpus₁.trans hcpus₂
  refine ⟨l, s₁, p, s₂, fl₂, p :: l :: ms, heq₁, heq₂, hpl.symm, hcpus,
    hcpus.objectSize.trans h.objectSize, ?_, ?_, ?_, ?_⟩
  · have hcl : s₂.contents l = s₁.contents l := by
      unfold KmemCache.contents
      rw [hl]
    have hcm : ms.flatMap s₂.contents = ms.flatMap s.contents :=
      flatMap_congr fun a ha => by unfold KmemCache.contents; rw [hold a ha]
    refine (h₂.held_perm (List.Perm.of_eq ?_)).congr rfl rfl rfl rfl rfl
    show _ = (p :: l :: ms).flatMap s₂.contents ++ []
    rw [flatMap_cons, flatMap_cons, hcl, hcm, nil_append]
    simp only [List.append_nil]
  · have hnew : (s₂.setCpu i l p).cpuMags i = [l, p] := by
      rw [cpuMags_setCpu, if_neg hpl.symm]
    have hrest : (s₂.setCpu i l p).magList i = s.magList i := by
      unfold KmemCache.magList
      refine flatMap_congr fun c hc => ?_
      unfold KmemCache.cpuMags KmemCache.setCpu
      simp only [update_of_ne (Nat.ne_of_lt (mem_range.mp hc)), hcpus.cpuCache]
    have hsucc : (s₂.setCpu i l p).magList (i + 1) = s.magList i ++ [l, p] := by
      rw [← hrest, ← hnew]
      unfold KmemCache.magList
      rw [range_succ, flatMap_append, flatMap_singleton]
    rw [hsucc]
    have hfront : (p :: l :: ms).Perm ([l, p] ++ s.magList i) :=
      (List.Perm.swap l p ms).trans ((h.mags.cons p).cons l)
    exact hfront.trans perm_append_comm
  · intro j hj
    rw [← h.depot_nil j hj, ← hcpus.magazines]
    rfl
  · intro a ha
    rcases mem_cons.mp ha with rfl | ha
    · exact hle₂
    rcases mem_cons.mp ha with rfl | ha
    · exact hl ▸ hle₁
    · exact (hold a ha) ▸ h.count_le a ha

include hp in
theorem initCpus_spec (n i : ℕ) (s : KmemCache) (fl : ℕ → List ℕ) (ms : List ℕ)
    (h : CacheInv pages size i s fl [] [] ms)
    (hd : ∀ c < i, (s.cpuCache c).loaded ≠ (s.cpuCache c).previous) :
    ∃ s' fl' ms', initCpus pages n i s = some s' ∧ CacheInv pages size (i + n) s' fl' [] [] ms' ∧
      ∀ c < i + n, (s'.cpuCache c).loaded ≠ (s'.cpuCache c).previous := by
  induction n generalizing i s fl ms with
  | zero => exact ⟨s, fl, ms, rfl, h, hd⟩
  | succ n ih =>
    obtain ⟨l, s₁, p, s₂, fl', ms', heq₁, heq₂, hlp, hcpus, h'⟩ := h.addCpu hp
    have hd' : ∀ c < i + 1, ((s₂.setCpu i l p).cpuCache c).loaded ≠
        ((s₂.setCpu i l p).cpuCache c).previous := by
      intro c hc
      unfold KmemCache.setCpu
      by_cases he : c = i
      · subst he
        simp only [update_self]
        exact hlp
      · simp only [update_of_ne he, hcpus.cpuCache]
        exact hd c (by omega)
    obtain ⟨s', fl'', ms'', heq, h'', hd''⟩ := ih (i + 1) _ fl' ms' h' hd'
    have hn : i + 1 + n = i + (n + 1) := by omega
    rw [hn] at h'' hd''
    refine ⟨s', fl'', ms'', ?_, h'', hd''⟩
    unfold initCpus
    simp only [heq₁, heq₂, bind_eq_bind, Option.bind_some]
    exact heq

include hp in
theorem kmemCacheIntialize_spec (hs : SizeOk size) (memory : KmemCache) :
    ∃ s fl ms, kmemCacheIntialize pages memory size = some s ∧
      CacheInv pages size maxCpus s fl [] [] ms ∧ Distinct s := by
  set s : KmemCache := { memory with
    objectSize := size, slabs := fun _ => [], magazines := fun _ => [] } with hs'
  have hall : s.slabsAll = [] := rfl
  have h0 : SlabInv pages s (fun _ => []) [] [] := by
    refine ⟨hs, ?_, ?_, ?_, ?_, fun _ _ => rfl, ?_, ?_⟩
    · rw [hall]
      exact nodup_nil
    · intro a ha
      cases ha
    · intro b hb
      cases hb
    · intro b hb
      cases hb
    · intro b hb
      cases hb
    · exact List.Perm.refl _
  have h : CacheInv pages size 0 s (fun _ => []) [] [] [] :=
    ⟨rfl, h0, List.Perm.refl _, fun _ _ => rfl, fun m hm => absurd hm not_mem_nil⟩
  obtain ⟨s', fl, ms, heq, h', hd⟩ := initCpus_spec hp maxCpus 0 s _ _ h fun c hc => by cases hc
  rw [Nat.zero_add] at h' hd
  exact ⟨s', fl, ms, heq, h', hd⟩

end Init

/-! ## Worlds -/

/-- A cache and the objects that are outstanding. -/
structure World where
  cache : KmemCache
  out : List ℕ

/-- A call from some CPU, or a write by a user into an object it holds. -/
inductive Op
  | alloc (cpu : ℕ)
  | free (cpu obj : ℕ)
  | store (obj : ℕ) (f : ℕ → ℕ)

/-- Any writes to the bytes of an object. -/
def KmemCache.store (s : KmemCache) (obj : ℕ) (f : ℕ → ℕ) : KmemCache :=
  { s with word := fun x => if x + 8 ≤ obj ∨ obj + s.objectSize ≤ x then s.word x else f x }

/-- A step; only outstanding objects are freed or written. -/
def step (pages : ℕ → ℕ) (w : World) : Op → Option World
  | .alloc cpu => do
    let (obj, s) ← kmemAllocCache pages w.cache cpu
    return ⟨s, obj :: w.out⟩
  | .free cpu obj => do
    guard (obj ∈ w.out)
    let s ← kmemFreeCache pages w.cache cpu obj
    return ⟨s, w.out.erase obj⟩
  | .store obj f => do
    guard (obj ∈ w.out)
    return { w with cache := w.cache.store obj f }

def Depot (w : World) : Op → Prop
  | .free cpu _ => TakesDepot w.cache cpu
  | _ => False

instance (w : World) : (op : Op) → Decidable (Depot w op)
  | .free cpu _ => inferInstanceAs (Decidable (TakesDepot w.cache cpu))
  | .alloc _ => inferInstanceAs (Decidable False)
  | .store _ _ => inferInstanceAs (Decidable False)

def Inv (pages : ℕ → ℕ) (size : ℕ) (w : World) (lost : List ℕ) : Prop :=
  ∃ fl ms, CacheInv pages size maxCpus w.cache fl w.out lost ms

theorem CacheInv.out_perm {pages : ℕ → ℕ} {size n : ℕ} {s : KmemCache} {fl : ℕ → List ℕ}
    {out out' lost ms : List ℕ} (h : CacheInv pages size n s fl out lost ms)
    (hp : out.Perm out') : CacheInv pages size n s fl out' lost ms :=
  ⟨h.objectSize, h.slab.held_perm (hp.append_right _), h.mags, h.depot_nil, h.count_le⟩

section Steps

variable {pages : ℕ → ℕ} {size : ℕ} {w w' : World} {lost : List ℕ}

theorem Inv.nodup (hp : FreshPages pages) (h : Inv pages size w lost) :
    w.out.Nodup ∧ (∀ o ∈ w.out, o ∈ w.cache.carved) := by
  obtain ⟨fl, ms, h⟩ := h
  have hnd := (h.slab.tally.nodup_iff.mpr (h.slab.carved_nodup hp))
  refine ⟨(nodup_append.mp (nodup_append.mp hnd).1).1, fun o ho => ?_⟩
  exact h.slab.tally.mem_iff.mp (mem_append_left _ (mem_append_left _ ho))

variable {cpu obj : ℕ}

theorem Inv.cons_erase (h : Inv pages size w lost) (ho : obj ∈ w.out) :
    ∃ fl ms, CacheInv pages size maxCpus w.cache fl (obj :: w.out.erase obj) lost ms := by
  obtain ⟨fl, ms, h⟩ := h
  exact ⟨fl, ms, h.out_perm (perm_cons_erase ho)⟩

theorem Inv.alloc (hp : FreshPages pages) (h : Inv pages size w lost) (hc : cpu < maxCpus) :
    ∃ obj s', kmemAllocCache pages w.cache cpu = some (obj, s') ∧
      Inv pages size ⟨s', obj :: w.out⟩ lost ∧ (Distinct w.cache → Distinct s') := by
  obtain ⟨fl, ms, h⟩ := h
  obtain ⟨obj, s', fl', ms', heq, h', hd⟩ := h.alloc hp hc
  exact ⟨obj, s', heq, ⟨fl', ms', h'⟩, hd⟩

theorem Inv.free (h : Inv pages size w lost) (hc : cpu < maxCpus) (ho : obj ∈ w.out)
    (hd : ¬ TakesDepot w.cache cpu) :
    ∃ s', kmemFreeCache pages w.cache cpu obj = some s' ∧
      Inv pages size ⟨s', w.out.erase obj⟩ lost ∧ (Distinct w.cache → Distinct s') := by
  obtain ⟨fl, ms, h⟩ := h.cons_erase ho
  obtain ⟨s', ms', heq, h', hdist⟩ := h.free hc hd
  exact ⟨s', heq, ⟨fl, ms', h'⟩, hdist⟩

theorem Inv.depot (h : Inv pages size w lost) (hc : cpu < maxCpus) (ho : obj ∈ w.out)
    (hd : TakesDepot w.cache cpu) :
    ∃ s' l, kmemFreeCache pages w.cache cpu obj = some s' ∧ l ≠ [] ∧
      Inv pages size ⟨s', w.out.erase obj⟩ (l ++ lost) := by
  obtain ⟨fl, ms, h⟩ := h.cons_erase ho
  obtain ⟨s', ms', heq, h'⟩ := h.depot hc hd
  refine ⟨s', _, heq, ?_, fl, ms', h'⟩
  have hpos : 0 < (w.cache.mag (w.cache.cpuCache cpu).loaded).count :=
    Nat.lt_of_lt_of_le (by decide) (Nat.le_of_not_lt hd.1)
  have hobj : (w.cache.mag (w.cache.cpuCache cpu).loaded).objects 0 ∈
      w.cache.contents (w.cache.cpuCache cpu).loaded :=
    List.mem_map.mpr ⟨0, mem_range.mpr hpos, rfl⟩
  exact ne_nil_of_mem (mem_flatMap.mpr ⟨_, loaded_mem_cpuMags w.cache cpu, hobj⟩)

theorem Inv.free_any (h : Inv pages size w lost) (hc : cpu < maxCpus) (ho : obj ∈ w.out) :
    ∃ s' lost', kmemFreeCache pages w.cache cpu obj = some s' ∧
      Inv pages size ⟨s', w.out.erase obj⟩ lost' := by
  by_cases hd : TakesDepot w.cache cpu
  · obtain ⟨s', l, heq, -, h'⟩ := h.depot hc ho hd
    exact ⟨s', _, heq, h'⟩
  · obtain ⟨s', heq, h', -⟩ := h.free hc ho hd
    exact ⟨s', _, heq, h'⟩

theorem Inv.frame (hp : FreshPages pages) (h : Inv pages size w lost) {word : ℕ → ℕ}
    (hw : ∀ o ∈ w.cache.carved, o ∉ w.out → word o = w.cache.word o) :
    Inv pages size ⟨{ w.cache with word := word }, w.out⟩ lost := by
  obtain ⟨fl, ms, h⟩ := h
  have hnd := h.slab.tally.nodup_iff.mpr (h.slab.carved_nodup hp)
  refine ⟨fl, ms, h.objectSize, ⟨h.slab.size, h.slab.nodup, h.slab.old, ?_, h.slab.own,
    h.slab.full_eq, h.slab.partial_ne, h.slab.tally⟩, h.mags, h.depot_nil, h.count_le⟩
  intro b hb
  refine (h.slab.chain b hb).frame fun x hx => hw x ?_ fun hout => ?_
  · exact h.slab.tally.mem_iff.mp (mem_append_right _ (mem_flatMap.mpr ⟨b, hb, hx⟩))
  · exact (nodup_append.mp hnd).2.2 x (mem_append_left _ hout) x
      (mem_flatMap.mpr ⟨b, hb, hx⟩) rfl

theorem Inv.disjoint (hp : FreshPages pages) (h : Inv pages size w lost) {o o' : ℕ}
    (ho : o ∈ w.cache.carved) (ho' : o' ∈ w.cache.carved) (hne : o ≠ o') :
    o + w.cache.objectSize ≤ o' ∨ o' + w.cache.objectSize ≤ o := by
  obtain ⟨fl, ms, h⟩ := h
  exact h.slab.carved_disjoint hp ho ho' hne

theorem Inv.sizeOk (h : Inv pages size w lost) : SizeOk w.cache.objectSize := by
  obtain ⟨fl, ms, h⟩ := h
  exact h.slab.size

theorem Inv.store (hp : FreshPages pages) (h : Inv pages size w lost) (ho : obj ∈ w.out) (f : ℕ → ℕ) :
    Inv pages size { w with cache := w.cache.store obj f } lost := by
  refine h.frame hp fun x hx hout => if_pos ?_
  have hne : x ≠ obj := by
    rintro rfl
    exact hout ho
  have hsize := h.sizeOk.1
  rcases h.disjoint hp hx ((h.nodup hp).2 obj ho) hne with hlt | hlt
  · exact Or.inl (by omega)
  · exact Or.inr hlt

theorem kmemAllocCache_lt {s : KmemCache} {r : ℕ × KmemCache}
    (h : kmemAllocCache pages s cpu = some r) : cpu < maxCpus := by
  unfold kmemAllocCache at h
  simp only [bind_eq_bind, bind_eq_some_iff] at h
  obtain ⟨_, hg, -⟩ := h
  exact (guard_eq_some' _).mp hg

theorem kmemFreeCache_lt {s s' : KmemCache} (h : kmemFreeCache pages s cpu obj = some s') :
    cpu < maxCpus := by
  unfold kmemFreeCache at h
  simp only [bind_eq_bind, bind_eq_some_iff] at h
  obtain ⟨_, hg, -⟩ := h
  exact (guard_eq_some' _).mp hg

theorem step_inv (hp : FreshPages pages) (h : Inv pages size w lost) {op : Op}
    (hstep : step pages w op = some w') :
    ∃ l, Inv pages size w' (l ++ lost) ∧ (l = [] ↔ ¬ Depot w op) ∧
      (l = [] → Distinct w.cache → Distinct w'.cache) := by
  cases op with
  | alloc cpu =>
    simp only [step, bind_eq_bind, bind_eq_some_iff, Option.pure_def] at hstep
    obtain ⟨⟨obj, s⟩, heq, hw⟩ := hstep
    cases hw
    obtain ⟨obj', s', heq', h', hd⟩ := h.alloc hp (kmemAllocCache_lt heq)
    cases heq.symm.trans heq'
    exact ⟨[], h', by simp [Depot], fun _ => hd⟩
  | free cpu obj =>
    simp only [step, bind_eq_bind, bind_eq_some_iff, Option.pure_def] at hstep
    obtain ⟨_, hg, s, heq, hw⟩ := hstep
    cases hw
    have ho : obj ∈ w.out := (guard_eq_some' _).mp hg
    have hc := kmemFreeCache_lt heq
    by_cases hd : TakesDepot w.cache cpu
    · obtain ⟨s', l, heq', hl, h'⟩ := h.depot hc ho hd
      cases heq.symm.trans heq'
      exact ⟨l, h', iff_of_false hl (not_not.mpr hd), fun e => absurd e hl⟩
    · obtain ⟨s', heq', h', hdist⟩ := h.free hc ho hd
      cases heq.symm.trans heq'
      exact ⟨[], h', iff_of_true rfl hd, fun _ => hdist⟩
  | store obj f =>
    simp only [step, bind_eq_bind, bind_eq_some_iff, Option.pure_def] at hstep
    obtain ⟨_, hg, hw⟩ := hstep
    cases hw
    exact ⟨[], h.store hp ((guard_eq_some' _).mp hg) f, by simp [Depot], fun _ hd => hd⟩

theorem run_inv (hp : FreshPages pages) {ops : List Op} {w : World} {lost : List ℕ}
    (h : Inv pages size w lost) (hr : run (step pages) w ops = some w') :
    ∃ l, Inv pages size w' (l ++ lost) ∧
      (l = [] ↔ Meets (step pages) (fun w op => ¬ Depot w op) w ops) ∧
      (l = [] → Distinct w.cache → Distinct w'.cache) := by
  induction ops generalizing w lost with
  | nil =>
    cases hr
    exact ⟨[], h, iff_of_true rfl trivial, fun _ hd => hd⟩
  | cons op ops ih =>
    obtain ⟨w₁, hstep, hr⟩ := run_cons_eq_some.mp hr
    obtain ⟨l₁, h₁, hl₁, hd₁⟩ := step_inv hp h hstep
    obtain ⟨l₂, h₂, hl₂, hd₂⟩ := ih h₁ hr
    refine ⟨l₂ ++ l₁, by rwa [append_assoc], ?_, ?_⟩
    · rw [append_eq_nil_iff]
      constructor
      · rintro ⟨e₂, e₁⟩
        refine ⟨hl₁.mp e₁, fun s' hs' => ?_⟩
        cases hstep.symm.trans hs'
        exact hl₂.mp e₂
      · rintro ⟨hop, hrest⟩
        exact ⟨hl₂.mpr (hrest w₁ hstep), hl₁.mpr hop⟩
    · intro e hd
      obtain ⟨e₂, e₁⟩ := append_eq_nil_iff.mp e
      exact hd₂ e₂ (hd₁ e₁ hd)

end Steps

/-! ## Exclusivity -/

/-- The outstanding objects do not overlap each other or the header of a slab. -/
structure Exclusive (w : World) : Prop where
  disjoint : w.out.Pairwise fun o o' =>
    o + w.cache.objectSize ≤ o' ∨ o' + w.cache.objectSize ≤ o
  in_slab : ∀ o ∈ w.out, ∃ slab ∈ w.cache.slabsAll,
    slab + sizeofKmemSlab ≤ o ∧ o + w.cache.objectSize ≤ slab + archPageGran
  off_header : ∀ o ∈ w.out, ∀ slab ∈ w.cache.slabsAll,
    o + w.cache.objectSize ≤ slab ∨ slab + sizeofKmemSlab ≤ o

theorem Inv.exclusive {pages : ℕ → ℕ} (hp : FreshPages pages) {size : ℕ} {w : World}
    {lost : List ℕ} (h : Inv pages size w lost) : Exclusive w := by
  obtain ⟨hnd, hcarved⟩ := h.nodup hp
  obtain ⟨fl, ms, h⟩ := h
  have hin : ∀ o ∈ w.out, ∃ slab ∈ w.cache.slabsAll,
      slab + sizeofKmemSlab ≤ o ∧ o + w.cache.objectSize ≤ slab + archPageGran := by
    intro o ho
    obtain ⟨slab, hslab, hmem⟩ := mem_flatMap.mp (hcarved o ho)
    obtain ⟨i, hi, rfl⟩ := mem_carvedOf.mp hmem
    exact ⟨slab, hslab, object_in_slab slab hi⟩
  refine ⟨?_, hin, ?_⟩
  · exact hnd.imp_of_mem fun {o o'} ho ho' hne =>
      h.slab.carved_disjoint hp (hcarved o ho) (hcarved o' ho') hne
  · intro o ho slab hslab
    obtain ⟨b, hb, hlo, hhi⟩ := hin o ho
    obtain ⟨x, -, hx⟩ := h.slab.old b (mem_append_right _ hb)
    obtain ⟨y, -, hy⟩ := h.slab.old slab (mem_append_right _ hslab)
    rcases Nat.lt_trichotomy b slab with hlt | rfl | hlt
    · have := hp.apart (i := x) (j := y) (by omega)
      omega
    · exact Or.inr hlo
    · have := hp.apart (i := y) (j := x) (by omega)
      have : sizeofKmemSlab ≤ archPageGran := by decide
      omega

/-- After every run of an initialised cache, the outstanding objects are exclusive, the next
allocation returns an object that is not outstanding, and any outstanding object can be freed. -/
theorem kmem_exclusive {pages : ℕ → ℕ} (hp : FreshPages pages) {size : ℕ} (hs : SizeOk size)
    (memory : KmemCache) (ops : List Op) :
    ∃ s₀, kmemCacheIntialize pages memory size = some s₀ ∧
      ∀ w, run (step pages) ⟨s₀, []⟩ ops = some w →
        w.cache.objectSize = size ∧ Exclusive w ∧
        (∀ cpu < maxCpus, ∃ obj s', kmemAllocCache pages w.cache cpu = some (obj, s') ∧
          obj ∉ w.out) ∧
        ∀ cpu < maxCpus, ∀ obj ∈ w.out, ∃ s', kmemFreeCache pages w.cache cpu obj = some s' := by
  obtain ⟨s₀, fl, ms, heq, h₀, -⟩ := kmemCacheIntialize_spec hp hs memory
  refine ⟨s₀, heq, fun w hr => ?_⟩
  obtain ⟨lost, h, -⟩ := run_inv hp (w := ⟨s₀, []⟩) ⟨fl, ms, h₀⟩ hr
  refine ⟨?_, h.exclusive hp, ?_, ?_⟩
  · obtain ⟨_, _, h⟩ := h
    exact h.objectSize
  · intro cpu hc
    obtain ⟨obj, s', heq, h', -⟩ := h.alloc hp hc
    exact ⟨obj, s', heq, (nodup_cons.mp (h'.nodup hp).1).1⟩
  · intro cpu hc obj ho
    obtain ⟨s', _, heq, -⟩ := h.free_any hc ho
    exact ⟨s', heq⟩

def samplePages (i : ℕ) : ℕ := (i + 1) * archPageGran

theorem samplePages_fresh : FreshPages samplePages where
  injective i j h := by
    unfold samplePages archPageGran at h
    omega
  aligned i := Dvd.intro_left _ rfl
  ne_zero i := by
    unfold samplePages archPageGran
    omega

def zeroMemory : KmemCache where
  objectSize := 0
  slabs := fun _ => []
  magazines := fun _ => []
  cpuCache := fun _ => ⟨0, 0⟩
  mag := fun _ => ⟨0, fun _ => 0⟩
  freelist := fun _ => 0
  word := fun _ => 0
  taken := 0

/-- The CPUs 0 and 1 allocate, and each frees an object of the other. -/
def sampleOps : List Op := [.alloc 0, .alloc 1, .alloc 0, .free 1 10208, .free 0 24480, .alloc 1]

theorem sampleOps_run : ∃ s₀ ∈ kmemCacheIntialize samplePages zeroMemory 64,
    ∃ w ∈ run (step samplePages) ⟨s₀, []⟩ sampleOps, w.out = [10208, 10272] ∧
      Meets (step samplePages) (fun w op => ¬ Depot w op) ⟨s₀, []⟩ sampleOps := by
  decide +kernel

theorem kmem_exclusive_sample :
    SizeOk 64 ∧ ∃ s₀ w, kmemCacheIntialize samplePages zeroMemory 64 = some s₀ ∧
      run (step samplePages) ⟨s₀, []⟩ sampleOps = some w ∧ w.out = [10208, 10272] ∧ Exclusive w := by
  have hs : SizeOk 64 := by decide
  obtain ⟨s₀, heq, w, hr, hout, -⟩ := sampleOps_run
  obtain ⟨s₁, heq₁, h⟩ := kmem_exclusive samplePages_fresh hs zeroMemory sampleOps
  cases heq.symm.trans heq₁
  exact ⟨hs, s₀, w, heq, hr, hout, (h w hr).2.1⟩

/-! ## Conservation -/

namespace KmemCache

def freeObjects (s : KmemCache) (slab : ℕ) : List ℕ :=
  collect s.word (s.objectCount + 1) (s.freelist slab)

def allMags (s : KmemCache) : List ℕ :=
  (List.range maxCpus).flatMap (fun c => [(s.cpuCache c).loaded, (s.cpuCache c).previous]) ++
    (s.magazines magazinesFull ++ s.magazines magazinesEmpty)

end KmemCache

/-- All places where an object can be. -/
def World.places (w : World) : List ℕ :=
  w.out ++ (w.cache.allMags.flatMap w.cache.contents ++
    w.cache.slabsAll.flatMap w.cache.freeObjects)

/-- Every object is in exactly one place, and the magazines are in order. -/
structure Conserved (w : World) : Prop where
  once : ∀ o ∈ w.cache.carved, w.places.count o = 1
  own : ∀ slab ∈ w.cache.slabsAll, ∀ o ∈ w.cache.freeObjects slab, o ∈ w.cache.carvedOf slab
  distinct : w.cache.allMags.Nodup
  full : ∀ m ∈ w.cache.magazines magazinesFull, (w.cache.mag m).count = magSize
  empty : ∀ m ∈ w.cache.magazines magazinesEmpty, (w.cache.mag m).count = 0

section Conservation

variable {pages : ℕ → ℕ} {size : ℕ} {w : World} {lost ms : List ℕ} {fl : ℕ → List ℕ}

theorem CacheInv.freeObjects_eq (h : CacheInv pages size maxCpus w.cache fl w.out lost ms) {b : ℕ}
    (hb : b ∈ w.cache.slabsAll) : w.cache.freeObjects b = fl b := by
  refine (h.slab.chain b hb).collect_eq ?_
  have hlen := (h.slab.own b hb).length_le
  rw [KmemCache.carvedOf, length_map, length_range] at hlen
  exact Nat.le_succ_of_le hlen

theorem CacheInv.mem_allMags (h : CacheInv pages size maxCpus w.cache fl w.out lost ms) {m : ℕ}
    (hm : m ∈ w.cache.allMags) : m ∈ ms := by
  unfold KmemCache.allMags at hm
  rw [h.depot_nil _ (by decide), h.depot_nil _ (by decide), List.append_nil, List.append_nil] at hm
  obtain ⟨c, hc, hm⟩ := mem_flatMap.mp hm
  have hmem := h.mem_magList (mem_range.mp hc)
  rcases mem_cons.mp hm with rfl | hm
  · exact hmem.1
  · rw [mem_singleton.mp hm]
    exact hmem.2

theorem CacheInv.allMags_perm (h : CacheInv pages size maxCpus w.cache fl w.out lost ms)
    (hd : Distinct w.cache) : w.cache.allMags.Perm ms := by
  unfold KmemCache.allMags
  rw [h.depot_nil _ (by decide), h.depot_nil _ (by decide), List.append_nil, List.append_nil]
  refine List.Perm.trans (List.Perm.of_eq ?_) h.mags.symm
  refine flatMap_congr fun c hc => ?_
  unfold KmemCache.cpuMags
  rw [if_neg (hd c (mem_range.mp hc))]

theorem Inv.conserved (hp : FreshPages pages) (h : Inv pages size w []) (hd : Distinct w.cache) :
    Conserved w := by
  obtain ⟨fl, ms, h⟩ := h
  have hmags := h.allMags_perm hd
  have hfree : w.cache.slabsAll.flatMap w.cache.freeObjects = w.cache.slabsAll.flatMap fl :=
    flatMap_congr fun b hb => h.freeObjects_eq hb
  have hplaces : w.places.Perm w.cache.carved := by
    refine List.Perm.trans ?_ h.slab.tally
    unfold World.places
    rw [hfree, List.append_nil, append_assoc]
    exact ((hmags.flatMap_right _).append_right _).append_left _
  refine ⟨?_, ?_, hmags.nodup_iff.mpr h.ms_nodup, ?_, ?_⟩
  · intro o ho
    rw [hplaces.count_eq]
    exact count_eq_one_of_mem (h.slab.carved_nodup hp) ho
  · intro b hb o ho
    rw [h.freeObjects_eq hb] at ho
    exact (h.slab.own b hb).subset ho
  · intro m hm
    rw [h.depot_nil _ (by decide)] at hm
    cases hm
  · intro m hm
    rw [h.depot_nil _ (by decide)] at hm
    cases hm

theorem Inv.not_conserved (hp : FreshPages pages) (h : Inv pages size w lost) (hl : lost ≠ []) :
    ¬ Conserved w := by
  intro hcons
  obtain ⟨fl, ms, h⟩ := h
  obtain ⟨o, ho⟩ := exists_mem_of_ne_nil lost hl
  have hnd := h.slab.tally.nodup_iff.mpr (h.slab.carved_nodup hp)
  obtain ⟨hheld, -, hfl⟩ := nodup_append.mp hnd
  obtain ⟨-, hrest, hout⟩ := nodup_append.mp hheld
  obtain ⟨-, -, hmags⟩ := nodup_append.mp hrest
  have hheldo : o ∈ w.out ++ (ms.flatMap w.cache.contents ++ lost) :=
    mem_append_right _ (mem_append_right _ ho)
  have hcarved : o ∈ w.cache.carved := h.slab.tally.mem_iff.mp (mem_append_left _ hheldo)
  have hmem : o ∈ w.places := count_pos_iff.mp (by rw [hcons.once o hcarved]; decide)
  unfold World.places at hmem
  rcases mem_append.mp hmem with hmem | hmem
  · exact hout o hmem o (mem_append_right _ ho) rfl
  rcases mem_append.mp hmem with hmem | hmem
  · obtain ⟨m, hm, hom⟩ := mem_flatMap.mp hmem
    exact hmags o (mem_flatMap.mpr ⟨m, h.mem_allMags hm, hom⟩) o ho rfl
  · obtain ⟨b, hb, hob⟩ := mem_flatMap.mp hmem
    rw [h.freeObjects_eq hb] at hob
    exact hfl o hheldo o (mem_flatMap.mpr ⟨b, hb, hob⟩) rfl

end Conservation

/-- A run of an initialised cache conserves its objects exactly when no call of `kmem_free_cache`
in it takes the depot path. -/
theorem kmem_conserved_iff {pages : ℕ → ℕ} (hp : FreshPages pages) {size : ℕ} (hs : SizeOk size)
    (memory : KmemCache) (ops : List Op) :
    ∃ s₀, kmemCacheIntialize pages memory size = some s₀ ∧
      ∀ w, run (step pages) ⟨s₀, []⟩ ops = some w →
        (Conserved w ↔ Meets (step pages) (fun w op => ¬ Depot w op) ⟨s₀, []⟩ ops) := by
  obtain ⟨s₀, fl, ms, heq, h₀, hd₀⟩ := kmemCacheIntialize_spec hp hs memory
  refine ⟨s₀, heq, fun w hr => ?_⟩
  obtain ⟨lost, h, hl, hd⟩ := run_inv hp (w := ⟨s₀, []⟩) ⟨fl, ms, h₀⟩ hr
  rw [List.append_nil] at h
  rw [← hl]
  constructor
  · intro hcons
    by_contra hne
    exact h.not_conserved hp hne hcons
  · rintro rfl
    exact h.conserved hp (hd rfl hd₀)

theorem kmem_conserved_iff_sample :
    SizeOk 64 ∧ ∃ s₀ w, kmemCacheIntialize samplePages zeroMemory 64 = some s₀ ∧
      run (step samplePages) ⟨s₀, []⟩ sampleOps = some w ∧ w.out = [10208, 10272] ∧ Conserved w := by
  have hs : SizeOk 64 := by decide
  obtain ⟨s₀, heq, w, hr, hout, hmeets⟩ := sampleOps_run
  obtain ⟨s₁, heq₁, h⟩ := kmem_conserved_iff samplePages_fresh hs zeroMemory sampleOps
  cases heq.symm.trans heq₁
  exact ⟨hs, s₀, w, heq, hr, hout, (h w hr).mpr hmeets⟩

/-- CPU 0 allocates 65 objects and frees them. -/
theorem kmem_leaks_sixty_five :
    ∃ (s₀ : KmemCache) (objs : List ℕ) (w : World),
      kmemCacheIntialize samplePages zeroMemory 64 = some s₀ ∧ objs.length = 65 ∧
      run (step samplePages) ⟨s₀, []⟩ (List.replicate 65 (.alloc 0) ++ objs.map (.free 0)) =
        some w ∧ ¬ Conserved w := by
  obtain ⟨s₀, heq, w₁, -, hlen, w, hr, hdepot⟩ : ∃ s₀ ∈ kmemCacheIntialize samplePages zeroMemory 64,
      ∃ w₁ ∈ run (step samplePages) ⟨s₀, []⟩ (List.replicate 65 (.alloc 0)), w₁.out.length = 65 ∧
        let ops := List.replicate 65 (.alloc 0) ++ w₁.out.map (.free 0)
        ∃ w ∈ run (step samplePages) ⟨s₀, []⟩ ops,
          ¬ Meets (step samplePages) (fun w op => ¬ Depot w op) ⟨s₀, []⟩ ops := by
    decide +kernel
  obtain ⟨s₁, fl, ms, heq₁, h₀, -⟩ := kmemCacheIntialize_spec samplePages_fresh
    (show SizeOk 64 by decide) zeroMemory
  cases heq.symm.trans heq₁
  obtain ⟨lost, h, hl, -⟩ := run_inv samplePages_fresh (w := ⟨s₀, []⟩) ⟨fl, ms, h₀⟩ hr
  rw [List.append_nil] at h
  exact ⟨s₀, w₁.out, w, heq, hlen, hr, h.not_conserved samplePages_fresh fun e => hdepot (hl.mp e)⟩

end LykOS.Kmem
