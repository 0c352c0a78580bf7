import LykOS.Mm.Vmm.Paging
import LykOS.Mm.Vmm.Segments

/-!
# Shared mappings

Address spaces that map files with `VMM_MAP_SHARED`. The frame of a shared page should be the one in the
page cache of the vnode, the same for all mappings, and hold the bytes of the file when it is new. A new
frame never does: it is filled through its physical address, not through the higher-half window. On a cached
vnode it is not even the frame in the cache, as `vfs_read` has put another one there under the same key.
Runs that map pages which are in the cache already, or past the end of a file, are coherent
(`shared_run_coherent`).
-/

namespace LykOS.Vmm

open Vfs X8664 Run Function
open Option hiding guard

/-- Vnodes that are files, some of them cached, and the frames of memory. -/
structure Disk extends Frames where
  files : ℕ → File
  cached : ℕ → Bool

def Disk.machine (D : Disk) : Machine where
  vnodes vn := (D.files vn).vnode (D.cached vn)
  frames := D.frames
  injective := D.injective
  aligned := D.aligned

/-- Address spaces with their page tables, memory and the page caches. `origin` records the vnode and
the offset that a page was mapped for. -/
structure SharedWorld where
  spaces : ℕ → AddrSpace
  pages : ℕ → ℕ → Option ℕ
  store : Store
  low : ℕ → ℕ → UInt8
  origin : ℕ → ℕ → Option (ℕ × ℕ)

namespace SharedWorld

def state (w : SharedWorld) (i : ℕ) : State := ⟨w.spaces i, w.pages i, w.store, w.low⟩

def setState (w : SharedWorld) (i : ℕ) (st : State) (origin : ℕ → Option (ℕ × ℕ)) : SharedWorld where
  spaces := Function.update w.spaces i st.as
  pages := Function.update w.pages i st.pages
  store := st.store
  low := st.low
  origin := Function.update w.origin i origin

end SharedWorld

structure SharedPage where
  virt : ℕ
  vn : ℕ
  offset : ℕ
  deriving DecidableEq, Repr

inductive SharedOp
  | mmap (i : ℕ) (a : MmapArgs)
  | fault (i addr : ℕ)

/-- The pages that `vmm_mmap` maps. -/
def mmapPages (as : AddrSpace) (a : MmapArgs) : List SharedPage :=
  match mmapPlace as a, a.vnode with
  | some (some virt, _), some vn =>
    if hasFlag a.flags vmmMapPopulate then
      (List.range (a.len / archPageGran)).map fun j =>
        ⟨u64 (virt + j * archPageGran), vn, u64 (a.offset + j * archPageGran)⟩
    else []
  | _, _ => []

/-- The page that `vmm_pagefault_handler` maps. -/
def faultPages (as : AddrSpace) (addr : ℕ) : List SharedPage :=
  match vmmAddrToSeg as addr with
  | none => []
  | some seg =>
    let virt := floorTo addr archPageGran
    match seg.vnode with
    | none => []
    | some vn => [⟨virt, vn, u64 (seg.offset + (virt - seg.base))⟩]

/-- The address space of an operation and the pages that it maps. -/
def SharedWorld.mapped (w : SharedWorld) : SharedOp → ℕ × List SharedPage
  | .mmap i a => (i, mmapPages (w.spaces i) a)
  | .fault i addr => (i, faultPages (w.spaces i) addr)

def recordPages (origin : ℕ → Option (ℕ × ℕ)) (l : List SharedPage) : ℕ → Option (ℕ × ℕ) :=
  l.foldl (fun o p => Function.update o p.virt (some (p.vn, p.offset))) origin

def sharedStep (D : Disk) (w : SharedWorld) (op : SharedOp) : Option SharedWorld := do
  let (i, l) := w.mapped op
  let st ← match op with
    | .mmap i a => do
      guard (hasFlag a.flags vmmMapShared)
      (vmmMmap D.machine (w.state i) a).map Prod.snd
    | .fault i addr => (vmmPagefaultHandler D.machine (w.state i) addr).map Prod.snd
  return w.setState i st (recordPages (w.origin i) l)

/-! ## Coherence -/

/-- All mappings of a page of a vnode are in one frame, the one in its page cache. -/
structure Coherent (w : SharedWorld) : Prop where
  one_frame : ∀ i j p q k, w.origin i p = some k → w.origin j q = some k → w.pages i p = w.pages j q
  in_cache : ∀ i p vn po, w.origin i p = some (vn, po) →
    ∃ f, w.pages i p = some f ∧ w.store.pageCache vn po = some f

/-- The frame of a page that was not in the cache holds the bytes of the file. -/
def HoldsFile (D : Disk) (w : SharedWorld) (op : SharedOp) (w' : SharedWorld) : Prop :=
  ∀ p ∈ (w.mapped op).2, w.store.pageCache p.vn p.offset = none →
    ∀ f, w'.pages (w.mapped op).1 p.virt = some f → ∀ k < archPageGran, ∀ b,
      (D.files p.vn).byte? (p.offset + k) = some b → w'.store.mem f k = b

/-- Every step of the run leads to a coherent world, with the bytes of the file in new pages. -/
def CoherentRun (D : Disk) (w : SharedWorld) (ops : List SharedOp) : Prop :=
  Meets (sharedStep D) (fun w op => ∀ w', sharedStep D w op = some w' →
    Coherent w' ∧ HoldsFile D w op w') w ops

/-- A page that is in the cache, or past the end of its file. In the second case `vfs_read` must not
put a page at this offset into the cache. -/
def Ready (D : Disk) (s : Store) (vn po : ℕ) : Prop :=
  s.pageCache vn po ≠ none ∨
    ((D.files vn).size ≤ po ∧ (D.cached vn = false ∨ po % archPageGran ≠ 0))

instance (D : Disk) (s : Store) (vn po : ℕ) : Decidable (Ready D s vn po) :=
  inferInstanceAs (Decidable (_ ∨ _))

/-- The operation maps pages that are ready only. -/
def MapsReady (D : Disk) (w : SharedWorld) (op : SharedOp) : Prop :=
  ∀ p ∈ (w.mapped op).2, Ready D w.store p.vn p.offset

instance (D : Disk) (w : SharedWorld) (op : SharedOp) : Decidable (MapsReady D w op) :=
  inferInstanceAs (Decidable (∀ p ∈ (w.mapped op).2, _))

/-! ## Pages that are ready -/

/-- The caches of `s'` have the pages of those of `s`. -/
def CacheLe (s s' : Store) : Prop :=
  ∀ vn po f, s.pageCache vn po = some f → s'.pageCache vn po = some f

theorem CacheLe.trans {s₁ s₂ s₃ : Store} (h : CacheLe s₁ s₂) (h' : CacheLe s₂ s₃) : CacheLe s₁ s₃ :=
  fun vn po f hf => h' vn po f (h vn po f hf)

theorem Ready.mono {D : Disk} {s s' : Store} {vn po : ℕ} (h : Ready D s vn po) (hle : CacheLe s s') :
    Ready D s' vn po := by
  rcases h with hcache | hpast
  · obtain ⟨f, hf⟩ := ne_none_iff_exists'.mp hcache
    exact Or.inl (by rw [hle vn po f hf]; exact some_ne_none f)
  · exact Or.inr hpast

/-- The recorded pages of an address space are in the frames of the caches. -/
def InCache (origin : ℕ → Option (ℕ × ℕ)) (pages : ℕ → Option ℕ) (s : Store) : Prop :=
  ∀ p vn po, origin p = some (vn, po) → ∃ f, pages p = some f ∧ s.pageCache vn po = some f

theorem InCache.mono {origin : ℕ → Option (ℕ × ℕ)} {pages : ℕ → Option ℕ} {s s' : Store}
    (h : InCache origin pages s) (hle : CacheLe s s') : InCache origin pages s' := by
  intro p vn po hp
  obtain ⟨f, hf, hc⟩ := h p vn po hp
  exact ⟨f, hf, hle vn po f hc⟩

section

variable {D : Disk} {st st' : State} {vn virt po : ℕ}

theorem cacheLe_addPage {s : Store} (hnone : s.pageCache vn po = none) (frame : ℕ) :
    CacheLe s (s.addPage vn po frame) := by
  intro vn' po' f hf
  refine (addPage_of_ne ?_ frame).trans hf
  rintro rfl rfl
  rw [hnone] at hf
  cases hf

theorem installShared_ready (hr : Ready D st.store vn po)
    (h : installShared D.machine st vn virt po = some st') :
    ∃ f, st'.pages = update st.pages virt (some f) ∧
      st'.store.pageCache vn po = some f ∧ CacheLe st.store st'.store ∧ st'.as = st.as := by
  unfold installShared at h
  cases hc : st.store.pageCache vn po with
  | some f =>
    simp only [hc, State.map, bind_eq_bind, bind_eq_some_iff, pure_def, Option.some.injEq] at h
    obtain ⟨_, -, _, -, rfl⟩ := h
    exact ⟨f, rfl, hc, fun _ _ _ hf => hf, rfl⟩
  | none =>
    simp only [hc, State.map, bind_eq_bind, bind_eq_some_iff, pure_def, Option.some.injEq] at h
    obtain ⟨r, hread, _, -, _, -, rfl⟩ := h
    have hext := vfsRead_extends hread
    -- reading the vnode leaves the offset free for the new frame
    have hnone : r.store.pageCache vn po = none := by
      rcases (hr.resolve_left fun hne => hne hc).2 with hraw | hpo
      · simp only [vfsRead, Disk.machine, File.vnode, hraw, Bool.false_eq_true, if_false] at hread
        cases hread
        exact hc
      · exact (hext vn po fun _ => hpo).trans hc
    have hle : CacheLe st.store r.store := fun vn' po' f hf =>
      (hext vn' po' fun hno => absurd (hf.symm.trans hno) (some_ne_none f)).trans hf
    refine ⟨_, rfl, ?_, hle.trans (cacheLe_addPage hnone _), rfl⟩
    rw [addPage_pageCache_apply hnone, if_pos rfl]

variable {origin : ℕ → Option (ℕ × ℕ)} {a : MmapArgs}

theorem InCache.install (h : InCache origin st.pages st.store) (hr : Ready D st.store vn po)
    (hrun : installShared D.machine st vn virt po = some st') :
    InCache (update origin virt (some (vn, po))) st'.pages st'.store ∧
      CacheLe st.store st'.store ∧ st'.as = st.as := by
  obtain ⟨f, hpages, hcache, hle, has⟩ := installShared_ready hr hrun
  refine ⟨fun p vn' po' hp => ?_, hle, has⟩
  rw [hpages]
  by_cases hpv : p = virt
  · subst hpv
    rw [update_self, Option.some.injEq, Prod.mk.injEq] at hp
    obtain ⟨rfl, rfl⟩ := hp
    exact ⟨f, update_self .., hcache⟩
  · rw [update_of_ne hpv] at hp ⊢
    exact h.mono hle p vn' po' hp

theorem InCache.populate (hshared : hasFlag a.flags vmmMapPrivate = false) (hvn : a.vnode = some vn)
    {l : List ℕ} (h : InCache origin st.pages st.store)
    (hr : ∀ j ∈ l, Ready D st.store vn (u64 (a.offset + j * archPageGran)))
    (hrun : l.foldlM (fun st j => populatePage D.machine a virt st (j * archPageGran)) st = some st') :
    InCache (recordPages origin (l.map fun j =>
        ⟨u64 (virt + j * archPageGran), vn, u64 (a.offset + j * archPageGran)⟩))
      st'.pages st'.store ∧ CacheLe st.store st'.store ∧ st'.as = st.as := by
  induction l generalizing st origin with
  | nil =>
    cases hrun
    exact ⟨h, fun _ _ _ hf => hf, rfl⟩
  | cons j l ih =>
    rw [List.foldlM_cons, bind_eq_bind, bind_eq_some_iff] at hrun
    obtain ⟨st₁, hone, hrun⟩ := hrun
    unfold populatePage at hone
    rw [hshared, if_neg Bool.false_ne_true, hvn] at hone
    obtain ⟨h₁, hle₁, has₁⟩ := h.install (hr j List.mem_cons_self) hone
    obtain ⟨h₂, hle₂, has₂⟩ := ih h₁
      (fun i hi => (hr i (List.mem_cons_of_mem _ hi)).mono hle₁) hrun
    exact ⟨h₂, hle₁.trans hle₂, has₂.trans has₁⟩

theorem populate_no_vnode {M : Machine} (hshared : hasFlag a.flags vmmMapPrivate = false)
    (hvn : a.vnode = none) {n : ℕ} (hrun : populate M a virt st n = some st') : st' = st := by
  unfold populate at hrun
  cases hl : List.range n with
  | nil =>
    rw [hl] at hrun
    exact (Option.some.inj hrun).symm
  | cons j l =>
    rw [hl, List.foldlM_cons, populatePage, hshared, if_neg Bool.false_ne_true, hvn] at hrun
    cases hrun

theorem not_private_of_mmapPlace {as : AddrSpace} {r : Option ℕ × AddrSpace}
    (hflag : hasFlag a.flags vmmMapShared = true) (h : mmapPlace as a = some r) :
    hasFlag a.flags vmmMapPrivate = false := by
  simp only [mmapPlace, bind_eq_bind, bind_eq_some_iff] at h
  obtain ⟨_, hguard, -⟩ := h
  have hasserts := (guard_eq_some' _).mp hguard
  simp only [mmapAsserts, hflag, Bool.and_eq_true, Bool.xor_true, Bool.not_eq_true'] at hasserts
  exact hasserts.1.2

def SharedOnly (as : AddrSpace) : Prop :=
  ∀ seg ∈ as.segments, hasFlag seg.flags vmmMapPrivate = false

theorem InCache.mmap {v : Option ℕ} (h : InCache origin st.pages st.store)
    (hflag : hasFlag a.flags vmmMapShared = true)
    (hr : ∀ p ∈ mmapPages st.as a, Ready D st.store p.vn p.offset)
    (hrun : vmmMmap D.machine st a = some (v, st')) :
    InCache (recordPages origin (mmapPages st.as a)) st'.pages st'.store ∧
      CacheLe st.store st'.store ∧ (SharedOnly st.as → SharedOnly st'.as) := by
  simp only [vmmMmap, bind_eq_bind, bind_eq_some_iff] at hrun
  obtain ⟨r, hplace, hrun⟩ := hrun
  have hpriv := not_private_of_mmapPlace hflag hplace
  rcases mmapPlace_eq hplace with ⟨-, -, rfl⟩ | ⟨virt, -, -, rfl⟩
  · cases hrun
    unfold mmapPages
    rw [hplace]
    exact ⟨h, fun _ _ _ hf => hf, id⟩
  · have hsegs : SharedOnly st.as → SharedOnly (vmmInsertSeg st.as (mmapSegment a virt)) := by
      intro hs seg hseg
      rcases (Interval.mem_insertByBase Seg.base).mp hseg with rfl | hold
      · exact hpriv
      · exact hs seg hold
    unfold mmapPages at hr ⊢
    rw [hplace] at hr ⊢
    dsimp only at hrun hr ⊢
    split_ifs at hrun with hpop
    · simp only [bind_eq_some_iff, pure_def, Option.some.injEq, Prod.mk.injEq] at hrun
      obtain ⟨st₁, hpages, -, rfl⟩ := hrun
      cases hvn : a.vnode with
      | none =>
        rw [populate_no_vnode hpriv hvn hpages]
        exact ⟨h, fun _ _ _ hf => hf, hsegs⟩
      | some vn =>
        simp only [hvn, hpop, if_true] at hr ⊢
        let placed : State := { st with as := vmmInsertSeg st.as (mmapSegment a virt) }
        have hplaced : InCache origin placed.pages placed.store := h
        obtain ⟨hin, hle, has⟩ := hplaced.populate hpriv hvn
          (fun j hj => hr _ (List.mem_map_of_mem hj)) hpages
        exact ⟨hin, hle, by rw [has]; exact hsegs⟩
    · cases hrun
      cases hvn : a.vnode with
      | none => exact ⟨h, fun _ _ _ hf => hf, hsegs⟩
      | some vn =>
        simp only [hpop, Bool.false_eq_true, if_false]
        exact ⟨h, fun _ _ _ hf => hf, hsegs⟩

theorem InCache.fault {addr : ℕ} {b : Bool} (h : InCache origin st.pages st.store)
    (hs : SharedOnly st.as) (hr : ∀ p ∈ faultPages st.as addr, Ready D st.store p.vn p.offset)
    (hrun : vmmPagefaultHandler D.machine st addr = some (b, st')) :
    InCache (recordPages origin (faultPages st.as addr)) st'.pages st'.store ∧
      CacheLe st.store st'.store ∧ st'.as = st.as := by
  unfold vmmPagefaultHandler at hrun
  unfold faultPages at hr ⊢
  cases hseg : vmmAddrToSeg st.as addr with
  | none =>
    rw [hseg] at hrun
    cases hrun
    exact ⟨h, fun _ _ _ hf => hf, rfl⟩
  | some seg =>
    have hpriv := hs seg (List.mem_of_find?_eq_some hseg)
    simp only [hseg, hpriv, Bool.false_eq_true, if_false, bind_eq_bind,
      bind_eq_some_iff, pure_def, Option.some.injEq, Prod.mk.injEq] at hrun hr ⊢
    obtain ⟨_, -, vn, hvn, st₁, hinst, -, rfl⟩ := hrun
    simp only [hvn, List.mem_singleton, forall_eq] at hr ⊢
    exact h.install hr hinst

end

/-! ## Steps and runs -/

/-- No space has a private segment, and the recorded pages are in the caches. -/
structure SharedInv (w : SharedWorld) : Prop where
  shared : ∀ i, SharedOnly (w.spaces i)
  inCache : ∀ i, InCache (w.origin i) (w.pages i) w.store

theorem SharedInv.coherent {w : SharedWorld} (h : SharedInv w) : Coherent w := by
  refine ⟨fun i j p q k hp hq => ?_, h.inCache⟩
  obtain ⟨f, hf, hcf⟩ := h.inCache i p k.1 k.2 hp
  obtain ⟨g, hg, hcg⟩ := h.inCache j q k.1 k.2 hq
  rw [hf, hg, ← hcf, ← hcg]

theorem SharedInv.setState {w : SharedWorld} (h : SharedInv w) {i : ℕ} {st : State}
    {origin : ℕ → Option (ℕ × ℕ)} (hin : InCache origin st.pages st.store)
    (hle : CacheLe w.store st.store) (hs : SharedOnly st.as) :
    SharedInv (w.setState i st origin) := by
  refine ⟨fun j => ?_, fun j => ?_⟩
  · by_cases hji : j = i
    · subst hji
      simpa only [SharedWorld.setState, update_self] using hs
    · simpa only [SharedWorld.setState, update_of_ne hji] using h.shared j
  · by_cases hji : j = i
    · subst hji
      simpa only [SharedWorld.setState, update_self] using hin
    · simpa only [SharedWorld.setState, update_of_ne hji] using (h.inCache j).mono hle

section

variable {D : Disk} {w w' : SharedWorld} {op : SharedOp}

theorem sharedStep_inv (h : SharedInv w) (hr : MapsReady D w op)
    (hs : sharedStep D w op = some w') : SharedInv w' := by
  cases op with
  | mmap i a =>
    simp only [sharedStep, SharedWorld.mapped, bind_eq_bind, bind_eq_some_iff,
      map_eq_some_iff, pure_def, Option.some.injEq] at hs
    obtain ⟨_, hguard, st, ⟨⟨v, _⟩, hrun, rfl⟩, rfl⟩ := hs
    have hflag := (guard_eq_some' _).mp hguard
    have hin : InCache (w.origin i) (w.state i).pages (w.state i).store := h.inCache i
    obtain ⟨hin, hle, hshared⟩ := hin.mmap hflag hr hrun
    exact h.setState hin hle (hshared (h.shared i))
  | fault i addr =>
    simp only [sharedStep, SharedWorld.mapped, bind_eq_bind, bind_eq_some_iff,
      map_eq_some_iff, pure_def, Option.some.injEq] at hs
    obtain ⟨st, ⟨⟨b, _⟩, hrun, rfl⟩, rfl⟩ := hs
    have hin : InCache (w.origin i) (w.state i).pages (w.state i).store := h.inCache i
    obtain ⟨hin, hle, has⟩ := hin.fault (h.shared i) hr hrun
    refine h.setState hin hle ?_
    rw [has]
    exact h.shared i

theorem holdsFile_of_ready (hr : MapsReady D w op) : HoldsFile D w op w' := by
  intro p hp hnone f _ k _ b hb
  have hpast : (D.files p.vn).size ≤ p.offset := ((hr p hp).resolve_left fun hne => hne hnone).1
  unfold File.byte? at hb
  rw [if_neg (by omega)] at hb
  cases hb

end

/-- In a run from spaces where nothing is mapped, in which every page mapped is in the cache already or
past the end of its file, at an offset that `vfs_read` does not cache, the mappings are coherent after
every step. -/
theorem shared_run_coherent {D : Disk} {w : SharedWorld} (hs : ∀ i, SharedOnly (w.spaces i))
    (ho : ∀ i p, w.origin i p = none) {ops : List SharedOp}
    (hr : Meets (sharedStep D) (MapsReady D) w ops) : CoherentRun D w ops := by
  have hinv : SharedInv w := ⟨hs, fun i p vn po hp => by rw [ho] at hp; cases hp⟩
  refine meets_of_step (fun w op h hr w' hw' => ?_) (fun w op w' h hr hw' => ?_) hinv hr
  · exact ⟨(sharedStep_inv h hr hw').coherent, holdsFile_of_ready hr⟩
  · exact sharedStep_inv h hr hw'

/-- Vnode `0` is a cached file of two bytes, vnode `1` an empty file that is not cached. -/
def sampleDisk : Disk where
  files vn := if vn = 0 then ⟨2, fun _ => 7⟩ else ⟨0, fun _ => 0⟩
  cached vn := vn = 0
  frames n := n * archPageGran
  injective := mul_archPageGran_injective
  aligned := mul_archPageGran_mod

/-- User spaces with nothing mapped, and the given page caches. -/
def sampleShared (pageCache : ℕ → ℕ → Option ℕ) (taken : ℕ) : SharedWorld where
  spaces _ := vmmNewAddrSpace 0x1000 archUserMaxVirt
  pages _ _ := none
  store := ⟨fun _ _ => 0, pageCache, taken⟩
  low _ _ := 0
  origin _ _ := none

def sharedArgs (vn flags : ℕ) : MmapArgs :=
  ⟨0x1000, 0x1000, vmmProtFull, vmmMapShared ||| vmmMapFixed ||| flags, some vn, 0⟩

/-- The first page of vnode `0` is in the cache, and mapped by two spaces. A third one maps vnode `1`. -/
theorem shared_run_coherent_sample :
    let w := sampleShared (fun vn po => if vn = 0 ∧ po = 0 then some 0 else none) 1
    let ops := [.mmap 0 (sharedArgs 0 vmmMapPopulate), .mmap 1 (sharedArgs 0 0), .fault 1 0x1000,
      .mmap 2 (sharedArgs 1 vmmMapPopulate)]
    (run (sharedStep sampleDisk) w ops).isSome ∧ CoherentRun sampleDisk w ops := by
  refine ⟨by decide +kernel, shared_run_coherent (fun i seg hseg => by cases hseg) (fun _ _ => rfl) ?_⟩
  refine ⟨by decide +kernel, fun w₁ hw₁ => ?_⟩
  cases hw₁
  refine ⟨by decide +kernel, fun w₂ hw₂ => ?_⟩
  cases hw₂
  refine ⟨by decide +kernel, fun w₃ hw₃ => ?_⟩
  cases hw₃
  exact ⟨by decide +kernel, fun _ _ => trivial⟩

/-- Two spaces map the first page of the cached file. The first one gets the frame that the file was
not read into, the second one the frame of the cache. -/
theorem shared_mappings_differ :
    ∃ w, run (sharedStep sampleDisk) (sampleShared (fun _ _ => none) 0)
        [.mmap 0 (sharedArgs 0 vmmMapPopulate), .mmap 1 (sharedArgs 0 vmmMapPopulate)] = some w ∧
      w.origin 0 0x1000 = some (0, 0) ∧ w.origin 1 0x1000 = some (0, 0) ∧
      w.store.pageCache 0 0 = some 0x1000 ∧ w.pages 0 0x1000 = some 0 ∧ w.pages 1 0x1000 = some 0x1000 ∧
      (sampleDisk.files 0).byte? 0 = some 7 ∧ w.store.mem 0 0 = 0 :=
  ⟨_, rfl, by decide +kernel, by decide +kernel, by decide +kernel, by decide +kernel,
    by decide +kernel, by decide +kernel, by decide +kernel⟩

end LykOS.Vmm
