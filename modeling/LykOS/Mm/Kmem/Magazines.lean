import LykOS.Mm.Kmem.Slabs

/-!
# Magazines

`CacheInv` extends `SlabInv` to the whole cache: the objects are outstanding (`out`), among the first
`count` entries of a magazine that some CPU holds, on a free list, or `lost`. The magazines of a CPU
are its loaded and its previous one, which may be the same (`cpuMags`). In every reachable state the
depot is empty between two calls, so `kmem_free_cache` gets its own full magazine back from it
(`CacheInv.depot`) and forgets the objects in it and in the previous one.
-/

namespace LykOS.Kmem

open Chain Function List

namespace KmemCache

def contents (s : KmemCache) (m : ℕ) : List ℕ :=
  (List.range (s.mag m).count).map (s.mag m).objects

def cpuMags (s : KmemCache) (cpu : ℕ) : List ℕ :=
  if (s.cpuCache cpu).loaded = (s.cpuCache cpu).previous then [(s.cpuCache cpu).loaded]
  else [(s.cpuCache cpu).loaded, (s.cpuCache cpu).previous]

def magList (s : KmemCache) (n : ℕ) : List ℕ := (List.range n).flatMap s.cpuMags

/-- The magazines of the first `n` CPUs, but for one of these. -/
def otherMags (s : KmemCache) (n cpu : ℕ) : List ℕ := ((List.range n).erase cpu).flatMap s.cpuMags

end KmemCache

theorem loaded_mem_cpuMags (s : KmemCache) (cpu : ℕ) : (s.cpuCache cpu).loaded ∈ s.cpuMags cpu := by
  unfold KmemCache.cpuMags
  split_ifs
  · exact mem_cons_self
  · exact mem_cons_self

theorem setCount_count (s : KmemCache) (m k : ℕ) : ((s.setCount m k).mag m).count = k := by
  unfold KmemCache.setCount
  simp only [update_self]

theorem magList_perm (s : KmemCache) {n cpu : ℕ} (hc : cpu < n) :
    (s.magList n).Perm (s.cpuMags cpu ++ s.otherMags n cpu) :=
  (perm_cons_erase (mem_range.mpr hc)).flatMap_right s.cpuMags

theorem otherMags_setCpu (s : KmemCache) (n cpu l p : ℕ) :
    (s.setCpu cpu l p).otherMags n cpu = s.otherMags n cpu := by
  unfold KmemCache.otherMags
  refine flatMap_congr fun c hc => ?_
  have hne : c ≠ cpu := (nodup_range.mem_erase_iff.mp hc).1
  unfold KmemCache.cpuMags KmemCache.setCpu
  simp only [update_of_ne hne]

theorem cpuMags_setCpu (s : KmemCache) (cpu l p : ℕ) :
    (s.setCpu cpu l p).cpuMags cpu = if l = p then [l] else [l, p] := by
  unfold KmemCache.cpuMags KmemCache.setCpu
  simp only [update_self]

theorem contents_update {s : KmemCache} {m a : ℕ} (hne : a ≠ m) (g : Magazine) :
    ({ s with mag := update s.mag m g } : KmemCache).contents a = s.contents a := by
  unfold KmemCache.contents
  simp only [update_of_ne hne]

theorem flatMap_contents_update {s : KmemCache} {m : ℕ} {ms : List ℕ} (hm : m ∉ ms) (g : Magazine) :
    ms.flatMap ({ s with mag := update s.mag m g } : KmemCache).contents =
      ms.flatMap s.contents :=
  flatMap_congr fun _ ha => contents_update (ne_of_mem_of_not_mem ha hm) g

theorem held_move (out c r : List ℕ) (x : ℕ) :
    (out ++ ((c ++ [x]) ++ r)).Perm ((x :: out) ++ (c ++ r)) := by
  rw [append_assoc, singleton_append, ← append_assoc, cons_append, ← append_assoc]
  exact perm_middle

namespace SlabInv

variable {pages : ℕ → ℕ} {s : KmemCache} {fl : ℕ → List ℕ} {others others' held held' : List ℕ}

theorem held_perm (h : SlabInv pages s fl others held) (hp : held.Perm held') :
    SlabInv pages s fl others held' :=
  ⟨h.size, h.nodup, h.old, h.chain, h.own, h.full_eq, h.partial_ne, (hp.symm.append_right _).trans h.tally⟩

theorem others_perm (h : SlabInv pages s fl others held) (hp : others.Perm others') :
    SlabInv pages s fl others' held :=
  ⟨h.size, (hp.append_right _).nodup_iff.mp h.nodup,
    fun a ha => h.old a ((hp.append_right _).mem_iff.mpr ha), h.chain, h.own, h.full_eq,
    h.partial_ne, h.tally⟩

theorem others_sublist (h : SlabInv pages s fl others held) (hs : others'.Sublist others) :
    SlabInv pages s fl others' held :=
  ⟨h.size, h.nodup.sublist (hs.append_right _),
    fun a ha => h.old a ((hs.append_right _).subset ha), h.chain, h.own, h.full_eq, h.partial_ne, h.tally⟩

theorem congr {t : KmemCache} (h : SlabInv pages s fl others held)
    (hsize : t.objectSize = s.objectSize) (hslabs : t.slabs = s.slabs) (hword : t.word = s.word)
    (hfree : t.freelist = s.freelist) (htaken : t.taken = s.taken) :
    SlabInv pages t fl others held := by
  cases s
  cases t
  cases hsize
  cases hslabs
  cases hword
  cases hfree
  cases htaken
  exact ⟨h.size, h.nodup, h.old, h.chain, h.own, h.full_eq, h.partial_ne, h.tally⟩

theorem takePage (hp : FreshPages pages) (h : SlabInv pages s fl others held) :
    SlabInv pages { s with taken := s.taken + 1 } fl (pages s.taken :: others) held := by
  have hnew : pages s.taken ∉ others ++ s.slabsAll := by
    intro hmem
    obtain ⟨i, hi, he⟩ := h.old _ hmem
    have := hp.injective he
    omega
  refine ⟨h.size, nodup_cons.mpr ⟨hnew, h.nodup⟩, ?_, h.chain, h.own, h.full_eq, h.partial_ne, h.tally⟩
  intro a ha
  rcases mem_cons.mp ha with rfl | ha
  · exact ⟨s.taken, Nat.lt_succ_self _, rfl⟩
  · obtain ⟨i, hi, he⟩ := h.old a ha
    exact ⟨i, Nat.lt_succ_of_lt hi, he⟩

end SlabInv

/-! ## The invariant of the cache -/

/-- `ms` lists the magazines that the CPUs hold, in any order. -/
structure CacheInv (pages : ℕ → ℕ) (size n : ℕ) (s : KmemCache) (fl : ℕ → List ℕ)
    (out lost ms : List ℕ) : Prop where
  objectSize : s.objectSize = size
  slab : SlabInv pages s fl ms (out ++ (ms.flatMap s.contents ++ lost))
  mags : ms.Perm (s.magList n)
  depot_nil : ∀ i < 2, s.magazines i = []
  count_le : ∀ m ∈ ms, (s.mag m).count ≤ magSize

namespace CacheInv

variable {pages : ℕ → ℕ} {size n : ℕ} {s : KmemCache} {fl : ℕ → List ℕ} {out lost ms ms' : List ℕ}

theorem perm (h : CacheInv pages size n s fl out lost ms) (hp : ms.Perm ms') :
    CacheInv pages size n s fl out lost ms' :=
  ⟨h.objectSize, (h.slab.others_perm hp).held_perm (((hp.flatMap_right _).append_right _).append_left _),
    hp.symm.trans h.mags, h.depot_nil, fun m hm => h.count_le m (hp.mem_iff.mpr hm)⟩

variable {cpu m : ℕ}

theorem focus (h : CacheInv pages size n s fl out lost ms) (hc : cpu < n) :
    CacheInv pages size n s fl out lost (s.cpuMags cpu ++ s.otherMags n cpu) :=
  h.perm (h.mags.trans (magList_perm s hc))

theorem ms_nodup (h : CacheInv pages size n s fl out lost ms) : ms.Nodup :=
  (nodup_append.mp h.slab.nodup).1

theorem mem_magList (h : CacheInv pages size n s fl out lost ms) (hc : cpu < n) :
    (s.cpuCache cpu).loaded ∈ ms ∧ (s.cpuCache cpu).previous ∈ ms := by
  have hmem : ∀ a ∈ s.cpuMags cpu, a ∈ ms := fun a ha =>
    h.mags.mem_iff.mpr (mem_flatMap.mpr ⟨cpu, mem_range.mpr hc, ha⟩)
  unfold KmemCache.cpuMags at hmem
  split_ifs at hmem with he
  · exact ⟨hmem _ (by simp), hmem _ (by simp [he])⟩
  · exact ⟨hmem _ (by simp), hmem _ (by simp)⟩

theorem swap (h : CacheInv pages size n s fl out lost ms) (hc : cpu < n) :
    CacheInv pages size n (s.setCpu cpu (s.cpuCache cpu).previous (s.cpuCache cpu).loaded) fl out lost
      ms := by
  set t := s.setCpu cpu (s.cpuCache cpu).previous (s.cpuCache cpu).loaded with ht
  have hcpu : (t.cpuMags cpu).Perm (s.cpuMags cpu) := by
    rw [ht, cpuMags_setCpu]
    unfold KmemCache.cpuMags
    by_cases he : (s.cpuCache cpu).loaded = (s.cpuCache cpu).previous
    · rw [if_pos he, if_pos he.symm, he]
    · rw [if_neg he, if_neg (Ne.symm he)]
      exact List.Perm.swap _ _ _
  have hmags : (t.magList n).Perm (s.magList n) := by
    refine (magList_perm t hc).trans (List.Perm.trans ?_ (magList_perm s hc).symm)
    rw [ht, otherMags_setCpu]
    exact hcpu.append_right _
  exact ⟨h.objectSize, h.slab.congr rfl rfl rfl rfl rfl, h.mags.trans hmags.symm, h.depot_nil, h.count_le⟩

/-! ### One magazine -/

theorem contents_succ {k : ℕ} (hk : (s.mag m).count = k + 1) :
    s.contents m = (s.setCount m k).contents m ++ [(s.mag m).objects k] := by
  unfold KmemCache.contents KmemCache.setCount
  simp only [update_self, hk, range_succ, map_append, map_cons, map_nil]

theorem magPop (h : CacheInv pages size n s fl out lost (m :: ms)) (hpos : 0 < (s.mag m).count) :
    ∃ obj s', s.magPop m = some (obj, s') ∧ s'.cpuCache = s.cpuCache ∧
      CacheInv pages size n s' fl (obj :: out) lost (m :: ms) := by
  obtain ⟨k, hk⟩ : ∃ k, (s.mag m).count = k + 1 := ⟨(s.mag m).count - 1, by omega⟩
  have hle := h.count_le m mem_cons_self
  have hm : m ∉ ms := (nodup_cons.mp h.ms_nodup).1
  set t := s.setCount m k with ht
  have hrest : ms.flatMap t.contents = ms.flatMap s.contents := flatMap_contents_update hm _
  have hheld : (out ++ ((m :: ms).flatMap s.contents ++ lost)).Perm
      (((s.mag m).objects k :: out) ++ ((m :: ms).flatMap t.contents ++ lost)) := by
    rw [flatMap_cons, flatMap_cons, hrest, contents_succ hk, append_assoc, append_assoc _ _ lost]
    exact held_move _ _ _ _
  refine ⟨(s.mag m).objects k, t, ?_, rfl, ⟨h.objectSize,
    (h.slab.held_perm hheld).congr rfl rfl rfl rfl rfl, h.mags, h.depot_nil, ?_⟩⟩
  · rw [KmemCache.magPop]
    simp only [hk, Nat.add_sub_cancel]
    rw [if_neg (by omega)]
  · intro a ha
    by_cases hae : a = m
    · subst hae
      have : (t.mag a).count = k := by rw [ht, KmemCache.setCount]; simp only [update_self]
      omega
    · have : t.mag a = s.mag a := update_of_ne hae _ _
      rw [this]
      exact h.count_le a ha

theorem magPush {obj : ℕ} (h : CacheInv pages size n s fl (obj :: out) lost (m :: ms))
    (hlt : (s.mag m).count < magSize) :
    ∃ s', s.magPush m obj = some s' ∧ s'.cpuCache = s.cpuCache ∧
      CacheInv pages size n s' fl out lost (m :: ms) := by
  have hm : m ∉ ms := (nodup_cons.mp h.ms_nodup).1
  set k := (s.mag m).count with hk
  set t := (s.setObject m k obj).setCount m (k + 1) with ht
  have htm : t.mag = update s.mag m ⟨k + 1, update (s.mag m).objects k obj⟩ := by
    rw [ht]
    unfold KmemCache.setCount KmemCache.setObject
    simp only [update_self, update_idem]
  have hcont : t.contents m = s.contents m ++ [obj] := by
    unfold KmemCache.contents
    rw [htm, update_self, ← hk]
    simp only [range_succ, map_append, map_cons, map_nil, update_self]
    congr 1
    refine map_congr_left fun i hi => update_of_ne ?_ _ _
    exact Nat.ne_of_lt (mem_range.mp hi)
  have hrest : ms.flatMap t.contents = ms.flatMap s.contents := by
    refine flatMap_congr fun a ha => ?_
    unfold KmemCache.contents
    rw [htm, update_of_ne (ne_of_mem_of_not_mem ha hm)]
  have hheld : ((obj :: out) ++ ((m :: ms).flatMap s.contents ++ lost)).Perm
      (out ++ ((m :: ms).flatMap t.contents ++ lost)) := by
    rw [flatMap_cons, flatMap_cons, hrest, hcont, append_assoc _ _ lost, append_assoc _ _ lost]
    exact (held_move _ _ _ _).symm
  refine ⟨t, ?_, rfl, ⟨h.objectSize, (h.slab.held_perm hheld).congr rfl rfl rfl rfl rfl, h.mags,
    h.depot_nil, ?_⟩⟩
  · rw [KmemCache.magPush]
    exact if_pos hlt
  · intro a ha
    rw [htm]
    by_cases hae : a = m
    · subst hae
      rw [update_self]
      exact hlt
    · rw [update_of_ne hae]
      exact h.count_le a ha

/-! ### The calls -/

theorem focus_loaded (h : CacheInv pages size n s fl out lost ms) (hc : cpu < n) :
    ∃ ms', CacheInv pages size n s fl out lost ((s.cpuCache cpu).loaded :: ms') := by
  have h' := h.focus hc
  unfold KmemCache.cpuMags at h'
  split_ifs at h' with he
  · exact ⟨_, h'⟩
  · exact ⟨_, h'⟩

theorem focus_previous (h : CacheInv pages size n s fl out lost ms) (hc : cpu < n) :
    ∃ ms', CacheInv pages size n (s.setCpu cpu (s.cpuCache cpu).previous (s.cpuCache cpu).loaded) fl
      out lost ((s.cpuCache cpu).previous :: ms') := by
  obtain ⟨ms', h'⟩ := (h.swap hc).focus_loaded hc
  have hload : ((s.setCpu cpu (s.cpuCache cpu).previous (s.cpuCache cpu).loaded).cpuCache cpu).loaded =
      (s.cpuCache cpu).previous := by
    unfold KmemCache.setCpu
    simp only [update_self]
  rw [hload] at h'
  exact ⟨ms', h'⟩

theorem previous_ne_zero (hp : FreshPages pages) (h : CacheInv pages size n s fl out lost ms)
    (hc : cpu < n) : (s.cpuCache cpu).previous ≠ 0 := by
  obtain ⟨i, -, he⟩ := h.slab.old _ (mem_append_left _ (h.mem_magList hc).2)
  rw [he]
  exact hp.ne_zero i

theorem allocFromSlabs (hp : FreshPages pages) (h : CacheInv pages size n s fl out lost ms) :
    ∃ obj s' fl', cacheAllocFromSlabs pages s = some (obj, s') ∧ s'.cpuCache = s.cpuCache ∧
      CacheInv pages size n s' fl' (obj :: out) lost ms := by
  obtain ⟨obj, s', fl', heq, hslab, hsame⟩ := h.slab.allocFromSlabs hp
  have hcont : s'.contents = s.contents := by
    funext m
    unfold KmemCache.contents
    rw [hsame.mag]
  have hlist : s'.magList n = s.magList n := by
    unfold KmemCache.magList KmemCache.cpuMags
    rw [hsame.cpuCache]
  refine ⟨obj, s', fl', heq, hsame.cpuCache, hsame.objectSize.trans h.objectSize, ?_, ?_, ?_, ?_⟩
  · rw [hcont]
    exact hslab
  · rw [hlist]
    exact h.mags
  · rw [hsame.magazines]
    exact h.depot_nil
  · rw [hsame.mag]
    exact h.count_le

end CacheInv

/-- No CPU has the same magazine loaded and as its previous one. -/
def Distinct (s : KmemCache) : Prop :=
  ∀ c < maxCpus, (s.cpuCache c).loaded ≠ (s.cpuCache c).previous

theorem Distinct.of_eq {s s' : KmemCache} (h : Distinct s) (he : s'.cpuCache = s.cpuCache) :
    Distinct s' := by
  unfold Distinct
  rw [he]
  exact h

theorem Distinct.swap {s : KmemCache} (h : Distinct s) (cpu : ℕ) :
    Distinct (s.setCpu cpu (s.cpuCache cpu).previous (s.cpuCache cpu).loaded) := by
  intro c hc
  unfold KmemCache.setCpu
  by_cases he : c = cpu
  · subst he
    simp only [update_self]
    exact (h c hc).symm
  · simp only [update_of_ne he]
    exact h c hc

namespace CacheInv

variable {pages : ℕ → ℕ} {s : KmemCache} {fl : ℕ → List ℕ} {out lost ms : List ℕ}
  {size cpu obj : ℕ}

theorem alloc (hp : FreshPages pages) (h : CacheInv pages size maxCpus s fl out lost ms)
    (hc : cpu < maxCpus) :
    ∃ obj s' fl' ms', kmemAllocCache pages s cpu = some (obj, s') ∧
      CacheInv pages size maxCpus s' fl' (obj :: out) lost ms' ∧ (Distinct s → Distinct s') := by
  have hg : (guard (cpu < maxCpus) : Option Unit) = some () := if_pos hc
  have hg' : (guard ((s.cpuCache cpu).previous ≠ 0) : Option Unit) = some () :=
    if_pos (h.previous_ne_zero hp hc)
  unfold kmemAllocCache
  simp only [hg, hg', Option.bind_eq_bind, Option.bind_some]
  by_cases hpos : 0 < (s.mag (s.cpuCache cpu).loaded).count
  · obtain ⟨ms', h'⟩ := h.focus_loaded hc
    obtain ⟨obj, s', heq, hcpu, h''⟩ := h'.magPop hpos
    exact ⟨obj, s', fl, _, by rw [if_pos hpos, heq], h'', fun hd => hd.of_eq hcpu⟩
  · rw [if_neg hpos]
    by_cases hfull : (s.mag (s.cpuCache cpu).previous).count = magSize
    · obtain ⟨ms', h'⟩ := h.focus_previous hc
      have hpos' : 0 < (s.mag (s.cpuCache cpu).previous).count := by
        rw [hfull]
        decide
      obtain ⟨obj, s', heq, hcpu, h''⟩ := h'.magPop hpos'
      exact ⟨obj, s', fl, _, by rw [if_pos hfull, heq], h'', fun hd => (hd.swap cpu).of_eq hcpu⟩
    · -- the depot has no full magazine to give
      have hnil : s.magazines magazinesFull = [] := h.depot_nil _ (by decide)
      obtain ⟨obj, s', fl', heq, hcpu, h'⟩ := h.allocFromSlabs hp
      refine ⟨obj, s', fl', ms, ?_, h', fun hd => hd.of_eq hcpu⟩
      rw [if_neg hfull, hnil]
      exact heq

theorem free (h : CacheInv pages size maxCpus s fl (obj :: out) lost ms) (hc : cpu < maxCpus)
    (hd : ¬ TakesDepot s cpu) :
    ∃ s' ms', kmemFreeCache pages s cpu obj = some s' ∧
      CacheInv pages size maxCpus s' fl out lost ms' ∧ (Distinct s → Distinct s') := by
  have hg : (guard (cpu < maxCpus) : Option Unit) = some () := if_pos hc
  unfold kmemFreeCache
  simp only [hg, Option.bind_eq_bind, Option.bind_some]
  by_cases hlt : (s.mag (s.cpuCache cpu).loaded).count < magSize
  · obtain ⟨ms', h'⟩ := h.focus_loaded hc
    obtain ⟨s', heq, hcpu, h''⟩ := h'.magPush hlt
    exact ⟨s', _, by rw [if_pos hlt, heq], h'', fun hd => hd.of_eq hcpu⟩
  · have hzero : (s.mag (s.cpuCache cpu).previous).count = 0 := by
      by_contra hne
      exact hd ⟨hlt, hne⟩
    obtain ⟨ms', h'⟩ := h.focus_previous hc
    have hlt' : (s.mag (s.cpuCache cpu).previous).count < magSize := by
      rw [hzero]
      decide
    obtain ⟨s', heq, hcpu, h''⟩ := h'.magPush hlt'
    exact ⟨s', _, by rw [if_neg hlt, if_pos hzero, heq], h'', fun hd => (hd.swap cpu).of_eq hcpu⟩

theorem depot_round_trip (h : CacheInv pages size maxCpus s fl out lost ms) (m : ℕ) :
    ∃ l₁ l₂, s.magAppend magazinesFull m = some { s with magazines := l₁ } ∧
      l₁ magazinesFull = [m] ∧
      ({ s with magazines := l₁ } : KmemCache).magRemove magazinesFull m =
        some { s with magazines := l₂ } ∧
      ∀ i < 2, l₂ i = [] := by
  have hnil : s.magazines magazinesFull = [] := h.depot_nil _ (by decide)
  have hhead : update s.magazines magazinesFull [m] magazinesFull = [m] :=
    update_self _ _ _
  refine ⟨update s.magazines magazinesFull [m],
    update s.magazines magazinesFull [], ?_, hhead, ?_, fun i hi => ?_⟩
  · unfold KmemCache.magAppend
    rw [Pool.append_eq (by decide) fun j hj => by rw [h.depot_nil j hj]; exact not_mem_nil, hnil]
    rfl
  · unfold KmemCache.magRemove
    show (Pool.remove 2 (update s.magazines magazinesFull [m]) magazinesFull m).map _ = _
    rw [Pool.remove_eq (by decide) (by rw [hhead]; exact mem_singleton_self m), hhead,
      erase_cons_head, update_idem]
    rfl
  · by_cases he : i = magazinesFull
    · rw [he]
      exact update_self _ _ _
    · rw [update_of_ne he]
      exact h.depot_nil i hi

/-- On the depot path the loaded magazine is the one that comes back from `magazines_full`: it is
emptied, and becomes the loaded and the previous magazine. What the two held is lost. -/
theorem depot (h : CacheInv pages size maxCpus s fl (obj :: out) lost ms) (hc : cpu < maxCpus)
    (hd : TakesDepot s cpu) :
    ∃ s' ms', kmemFreeCache pages s cpu obj = some s' ∧
      CacheInv pages size maxCpus s' fl out ((s.cpuMags cpu).flatMap s.contents ++ lost) ms' := by
  have hg : (guard (cpu < maxCpus) : Option Unit) = some () := if_pos hc
  set m := (s.cpuCache cpu).loaded with hm
  obtain ⟨l₁, l₂, happ, hhead, hrem, hnil⟩ := h.depot_round_trip m
  set t := (({ s with magazines := l₂ } : KmemCache).setCpu cpu m m).setCount m 0 with ht
  have hmem : m ∈ s.cpuMags cpu := loaded_mem_cpuMags s cpu
  have hcount : (t.mag m).count = 0 := setCount_count _ m 0
  have h₁ := h.focus hc
  have hmo : m ∉ s.otherMags maxCpus cpu := fun hmem' =>
    (nodup_append.mp h₁.ms_nodup).2.2 m hmem m hmem' rfl
  have hempty : t.contents m = [] := by
    unfold KmemCache.contents
    rw [hcount]
    rfl
  have hrest : (s.otherMags maxCpus cpu).flatMap t.contents =
      (s.otherMags maxCpus cpu).flatMap s.contents := flatMap_contents_update hmo _
  have h₂ : CacheInv pages size maxCpus t fl (obj :: out) ((s.cpuMags cpu).flatMap s.contents ++ lost)
      (m :: s.otherMags maxCpus cpu) := by
    refine ⟨h.objectSize, ?_, ?_, ?_, ?_⟩
    · have hsub : (m :: s.otherMags maxCpus cpu).Sublist
          (s.cpuMags cpu ++ s.otherMags maxCpus cpu) :=
        (singleton_sublist.mpr hmem).append_right _
      refine ((h₁.slab.others_sublist hsub).held_perm ?_).congr rfl rfl rfl rfl rfl
      rw [flatMap_cons, hempty, nil_append, hrest, flatMap_append]
      refine List.Perm.append_left _ ?_
      rw [← append_assoc]
      exact perm_append_comm.append_right _
    · refine List.Perm.trans ?_ (magList_perm t hc).symm
      have h1 : t.cpuMags cpu = [m] := by
        have := cpuMags_setCpu ({ s with magazines := l₂ } : KmemCache) cpu m m
        rwa [if_pos rfl] at this
      have h2 : t.otherMags maxCpus cpu = s.otherMags maxCpus cpu :=
        otherMags_setCpu ({ s with magazines := l₂ } : KmemCache) maxCpus cpu m m
      rw [h1, h2]
      rfl
    · exact hnil
    · intro a ha
      by_cases he : a = m
      · rw [he, hcount]
        exact Nat.zero_le _
      · have hmag : t.mag a = s.mag a := update_of_ne he _ _
        rw [hmag]
        refine h₁.count_le a (mem_append_right _ ?_)
        exact (mem_cons.mp ha).resolve_left he
  have hlt : (t.mag m).count < magSize := by
    rw [hcount]
    decide
  obtain ⟨s', heq, -, h'⟩ := h₂.magPush hlt
  refine ⟨s', _, ?_, h'⟩
  unfold kmemFreeCache
  simp only [hg, Option.bind_eq_bind, Option.bind_some, ← hm, if_neg hd.2, happ, hhead, head?_cons, hrem]
  rw [if_neg hd.1]
  exact heq

end CacheInv

end LykOS.Kmem
