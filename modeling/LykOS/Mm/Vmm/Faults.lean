import LykOS.Lib.Run
import LykOS.Mm.Vmm.Paging

/-!
# Faults and stores of many threads

The threads of a process share an address space. A thread that touches a page which is not mapped raises a
fault, and `arch_int_handler` later calls `vmm_pagefault_handler` for it; stores go to pages that are
mapped. By the time a fault is handled its page may have been mapped for another thread. The handler does
not look: it maps a new frame, and what was stored in the old one is lost. All pages stay what they are
exactly in the runs where no fault is handled for a page that is mapped (`faults_keep_writes_iff`).
-/

namespace LykOS.Vmm

open Vfs X8664 Run Function

/-- The address space, the faults that are raised and not handled, and the byte last stored at each
address. -/
structure FaultWorld where
  st : State
  pending : List ℕ
  stored : ℕ → Option UInt8

inductive FaultOp
  | raise (addr : ℕ)
  | handle (addr : ℕ)
  | store (addr : ℕ) (v : UInt8)
  deriving DecidableEq

def State.poke (st : State) (frame k : ℕ) (v : UInt8) : State :=
  { st with store := st.store.setMem frame (Function.update (st.store.mem frame) k v) }

/-- A step of some thread on some CPU. A fault that is not handled halts that CPU and changes
nothing. -/
def faultStep (M : Machine) (w : FaultWorld) : FaultOp → Option FaultWorld
  | .raise addr => do
    guard (Canonical addr ∧ w.st.pages (floorTo addr archPageGran) = none)
    return { w with pending := addr :: w.pending }
  | .handle addr => do
    guard (addr ∈ w.pending)
    let (_, st) ← vmmPagefaultHandler M w.st addr
    return { w with st, pending := w.pending.erase addr }
  | .store addr v => do
    let frame ← w.st.pages (floorTo addr archPageGran)
    return { w with
      st := w.st.poke frame (addr % archPageGran) v
      stored := Function.update w.stored addr (some v) }

def State.read (st : State) (addr : ℕ) : Option UInt8 :=
  st.byte? (floorTo addr archPageGran) (addr % archPageGran)

theorem State.read_of_mapped {st : State} {addr f : ℕ}
    (h : st.pages (floorTo addr archPageGran) = some f) :
    st.read addr = some (st.store.mem f (addr % archPageGran)) := by
  unfold State.read State.byte?
  rw [h]
  rfl

/-- Each byte that was stored is still there. -/
def KeepsWrites (w : FaultWorld) : Prop := ∀ addr v, w.stored addr = some v → w.st.read addr = some v

/-- The step leaves the frame of each mapped page, and its bytes but for the one that it stores. -/
def KeepsPages (M : Machine) (w : FaultWorld) (op : FaultOp) : Prop :=
  ∀ w', faultStep M w op = some w' → ∀ addr f, w.st.pages (floorTo addr archPageGran) = some f →
    w'.st.pages (floorTo addr archPageGran) = some f ∧
      ((∀ v, op ≠ .store addr v) → w'.st.read addr = w.st.read addr)

/-- No store is lost in the run: every step keeps the mapped pages, and the bytes stored are there at
the end. -/
def NoLostWrites (M : Machine) (w : FaultWorld) (ops : List FaultOp) : Prop :=
  Meets (faultStep M) (KeepsPages M) w ops ∧
    ∀ w', run (faultStep M) w ops = some w' → KeepsWrites w'

/-- A fault is handled for a page that is not mapped, or for no segment. -/
def FirstFault (w : FaultWorld) : FaultOp → Prop
  | .handle addr => w.st.pages (floorTo addr archPageGran) = none ∨ vmmAddrToSeg w.st.as addr = none
  | _ => True

/-! ## Private address spaces -/

/-- All segments are private, and each mapped page has a frame of its own, which is neither free nor in
a page cache. -/
structure PrivateSpace (M : Machine) (st : State) : Prop where
  isPrivate : ∀ seg ∈ st.as.segments, hasFlag seg.flags vmmMapPrivate = true
  inj : ∀ p q f, st.pages p = some f → st.pages q = some f → p = q
  used : ∀ p f n, st.pages p = some f → st.store.taken ≤ n → M.frames n ≠ f
  uncached : ∀ p f vn po, st.pages p = some f → st.store.pageCache vn po ≠ some f
  cacheUsed : CacheUsed M st.store

theorem privateSpace_of_unmapped {M : Machine} {st : State}
    (hseg : ∀ seg ∈ st.as.segments, hasFlag seg.flags vmmMapPrivate = true)
    (hpages : ∀ p, st.pages p = none) (hcache : CacheUsed M st.store) : PrivateSpace M st := by
  refine ⟨hseg, ?_, ?_, ?_, hcache⟩
  · intro p q f hp
    rw [hpages] at hp
    cases hp
  · intro p f n hp
    rw [hpages] at hp
    cases hp
  · intro p f vn po hp
    rw [hpages] at hp
    cases hp

section

variable {M : Machine} {st st' : State} {addr : ℕ}

theorem PrivateSpace.handler_cases (h : PrivateSpace M st) {b : Bool}
    (hrun : vmmPagefaultHandler M st addr = some (b, st')) :
    (vmmAddrToSeg st.as addr = none ∧ st' = st) ∨
      (vmmAddrToSeg st.as addr ≠ none ∧
        Installed M (floorTo addr archPageGran) (fun _ => True) st st' ∧ st'.as = st.as ∧
        CacheUsed M st'.store ∧
        ∀ vn po, st'.store.pageCache vn po ≠ some (M.frames st.store.taken)) := by
  unfold vmmPagefaultHandler at hrun
  cases hseg : vmmAddrToSeg st.as addr with
  | none =>
    rw [hseg] at hrun
    cases hrun
    exact Or.inl ⟨rfl, rfl⟩
  | some seg =>
    have hpriv := h.isPrivate seg (List.mem_of_find?_eq_some hseg)
    simp only [hseg, hpriv, if_true, Option.bind_eq_bind, Option.bind_eq_some_iff, Option.pure_def,
      Option.some.injEq, Prod.mk.injEq] at hrun
    obtain ⟨_, -, _, hinst, -, rfl⟩ := hrun
    exact Or.inr ⟨Option.some_ne_none seg, installPrivate_grows h.cacheUsed hinst⟩

theorem PrivateSpace.install (h : PrivateSpace M st) {virt : ℕ}
    (hinst : Installed M virt (fun _ => True) st st') (has : st'.as = st.as)
    (hcache : CacheUsed M st'.store)
    (hnew : ∀ vn po, st'.store.pageCache vn po ≠ some (M.frames st.store.taken)) :
    PrivateSpace M st' := by
  have hpages : ∀ p f, st'.pages p = some f →
      (p = virt ∧ f = M.frames st.store.taken) ∨ (p ≠ virt ∧ st.pages p = some f) := by
    intro p f hp
    rw [hinst.pages, update_apply] at hp
    split_ifs at hp with hpv
    · exact Or.inl ⟨hpv, (Option.some.inj hp).symm⟩
    · exact Or.inr ⟨hpv, hp⟩
  refine ⟨by rw [has]; exact h.isPrivate, ?_, ?_, ?_, hcache⟩
  · intro p q f hp hq
    rcases hpages p f hp with ⟨rfl, rfl⟩ | ⟨-, hp⟩
    · rcases hpages q _ hq with ⟨rfl, -⟩ | ⟨-, hq⟩
      · rfl
      · exact absurd rfl (h.used q _ _ hq le_rfl)
    · rcases hpages q f hq with ⟨-, rfl⟩ | ⟨-, hq⟩
      · exact absurd rfl (h.used p _ _ hp le_rfl)
      · exact h.inj p q f hp hq
  · intro p f n hp hn
    rcases hpages p f hp with ⟨-, rfl⟩ | ⟨-, hp⟩
    · exact fun heq => absurd (M.injective heq) (Nat.ne_of_gt (Nat.lt_of_lt_of_le hinst.taken hn))
    · exact h.used p f n hp (Nat.le_trans hinst.grows.taken hn)
  · intro p f vn po hp hpo
    rcases hpages p f hp with ⟨-, rfl⟩ | ⟨-, hp⟩
    · exact hnew vn po hpo
    · rcases hinst.grows.cache vn po f hpo with hold | ⟨n, hn, heq⟩
      · exact h.uncached p f vn po hp hold
      · exact h.used p f n hp hn heq

theorem PrivateSpace.read_install (h : PrivateSpace M st) {virt : ℕ}
    (hinst : Installed M virt (fun _ => True) st st') {addr f : ℕ}
    (hne : floorTo addr archPageGran ≠ virt) (hf : st.pages (floorTo addr archPageGran) = some f) :
    st'.pages (floorTo addr archPageGran) = some f ∧ st'.read addr = st.read addr := by
  have hpages : st'.pages (floorTo addr archPageGran) = some f := by
    rw [hinst.pages, update_of_ne hne, hf]
  refine ⟨hpages, ?_⟩
  rw [State.read_of_mapped hpages, State.read_of_mapped hf,
    hinst.grows.mem f fun n hn => h.used _ f n hf hn]

end

/-! ## Steps -/

section

variable {M : Machine} {w w' : FaultWorld} {op : FaultOp}

theorem faultStep_cases (h : PrivateSpace M w.st) (hs : faultStep M w op = some w') :
    (∃ addr, op = .raise addr ∧ w'.st = w.st ∧ w'.stored = w.stored) ∨
    (∃ addr, op = .handle addr ∧ vmmAddrToSeg w.st.as addr = none ∧ w'.st = w.st ∧
      w'.stored = w.stored) ∨
    (∃ addr, op = .handle addr ∧ vmmAddrToSeg w.st.as addr ≠ none ∧
      Installed M (floorTo addr archPageGran) (fun _ => True) w.st w'.st ∧
      PrivateSpace M w'.st ∧ w'.stored = w.stored) ∨
    (∃ addr v f, op = .store addr v ∧ w.st.pages (floorTo addr archPageGran) = some f ∧
      w'.st = w.st.poke f (addr % archPageGran) v ∧
      w'.stored = update w.stored addr (some v)) := by
  cases op with
  | raise addr =>
    simp only [faultStep, Option.bind_eq_bind, Option.bind_eq_some_iff, Option.pure_def,
      Option.some.injEq] at hs
    obtain ⟨_, -, rfl⟩ := hs
    exact Or.inl ⟨addr, rfl, rfl, rfl⟩
  | handle addr =>
    simp only [faultStep, Option.bind_eq_bind, Option.bind_eq_some_iff, Option.pure_def,
      Option.some.injEq] at hs
    obtain ⟨_, -, ⟨b, st'⟩, hrun, rfl⟩ := hs
    rcases h.handler_cases hrun with ⟨hnone, rfl⟩ | ⟨hsome, hinst, has, hcache, hnew⟩
    · exact Or.inr (Or.inl ⟨addr, rfl, hnone, rfl, rfl⟩)
    · exact Or.inr (Or.inr (Or.inl
        ⟨addr, rfl, hsome, hinst, h.install hinst has hcache hnew, rfl⟩))
  | store addr v =>
    simp only [faultStep, Option.bind_eq_bind, Option.bind_eq_some_iff, Option.pure_def,
      Option.some.injEq] at hs
    obtain ⟨f, hf, rfl⟩ := hs
    exact Or.inr (Or.inr (Or.inr ⟨addr, v, f, rfl, hf, rfl, rfl⟩))

theorem faultStep_private (h : PrivateSpace M w.st) (hs : faultStep M w op = some w') :
    PrivateSpace M w'.st := by
  rcases faultStep_cases h hs with ⟨addr, -, hst, -⟩ | ⟨addr, -, -, hst, -⟩ |
    ⟨addr, -, -, -, hpriv, -⟩ | ⟨addr, v, f, -, -, hst, -⟩
  · rwa [hst]
  · rwa [hst]
  · exact hpriv
  · rw [hst]
    exact ⟨h.isPrivate, h.inj, h.used, h.uncached, h.cacheUsed⟩

theorem PrivateSpace.read_store {st : State} (h : PrivateSpace M st) {addr addr' f f' : ℕ} (v : UInt8)
    (hf : st.pages (floorTo addr archPageGran) = some f)
    (hf' : st.pages (floorTo addr' archPageGran) = some f') :
    (st.poke f (addr % archPageGran) v).read addr' =
      if addr' = addr then some v else st.read addr' := by
  have hpoke : (st.poke f (addr % archPageGran) v).pages (floorTo addr' archPageGran) = some f' := hf'
  rw [State.read_of_mapped hf', State.read_of_mapped hpoke]
  unfold State.poke
  by_cases hff : f' = f
  · subst hff
    have hfloor := h.inj _ _ _ hf' hf
    have hiff : addr' % archPageGran = addr % archPageGran ↔ addr' = addr := by
      unfold floorTo archPageGran at *
      omega
    dsimp only
    rw [setMem_self, update_apply]
    split_ifs with hmod haddr haddr
    · rfl
    · exact absurd (hiff.mp hmod) haddr
    · exact absurd (hiff.mpr haddr) hmod
    · rfl
  · have hne : addr' ≠ addr := by
      rintro rfl
      exact hff (Option.some.inj (hf'.symm.trans hf))
    dsimp only
    rw [setMem_of_ne _ hff, if_neg hne]

theorem keepsPages_of_firstFault (h : PrivateSpace M w.st) (hfirst : FirstFault w op) :
    KeepsPages M w op := by
  intro w' hs addr' f' hf'
  rcases faultStep_cases h hs with ⟨addr, -, hst, -⟩ | ⟨addr, -, -, hst, -⟩ |
    ⟨addr, rfl, hseg, hinst, -, -⟩ | ⟨addr, v, f, rfl, hf, hst, -⟩
  · rw [hst]
    exact ⟨hf', fun _ => rfl⟩
  · rw [hst]
    exact ⟨hf', fun _ => rfl⟩
  · have hnone : w.st.pages (floorTo addr archPageGran) = none := hfirst.resolve_right hseg
    have hne : floorTo addr' archPageGran ≠ floorTo addr archPageGran := by
      intro heq
      rw [heq, hnone] at hf'
      cases hf'
    obtain ⟨hpages, hread⟩ := h.read_install hinst hne hf'
    exact ⟨hpages, fun _ => hread⟩
  · rw [hst]
    refine ⟨hf', fun hop => ?_⟩
    have hne : addr' ≠ addr := by
      rintro rfl
      exact hop v rfl
    rw [h.read_store v hf hf', if_neg hne]

theorem firstFault_of_keepsPages (h : PrivateSpace M w.st) (hs : faultStep M w op = some w')
    (hkeep : KeepsPages M w op) : FirstFault w op := by
  rcases faultStep_cases h hs with ⟨addr, rfl, -⟩ | ⟨addr, rfl, hnone, -⟩ |
    ⟨addr, rfl, hseg, hinst, -, -⟩ | ⟨addr, v, f, rfl, -⟩
  · trivial
  · exact Or.inr hnone
  · left
    cases hf : w.st.pages (floorTo addr archPageGran) with
    | none => rfl
    | some f =>
      have hsame := (hkeep w' hs addr f hf).1
      rw [hinst.pages, update_self] at hsame
      exact absurd (Option.some.inj hsame) (h.used _ f _ hf le_rfl)
  · trivial

theorem keepsWrites_step (h : PrivateSpace M w.st) (hs : faultStep M w op = some w')
    (hkeep : KeepsPages M w op) (hw : KeepsWrites w) : KeepsWrites w' := by
  intro addr' v' hstored
  have hold : ∀ v, w.stored addr' = some v → (∀ v, op ≠ .store addr' v) → w'.st.read addr' = some v := by
    intro v hv hop
    have hread := hw addr' v hv
    cases hf : w.st.pages (floorTo addr' archPageGran) with
    | none =>
      unfold State.read State.byte? at hread
      rw [hf] at hread
      cases hread
    | some f => rw [(hkeep w' hs addr' f hf).2 hop, hread]
  rcases faultStep_cases h hs with ⟨addr, rfl, -, heq⟩ | ⟨addr, rfl, -, -, heq⟩ |
    ⟨addr, rfl, -, -, -, heq⟩ | ⟨addr, v, f, rfl, hf, hst, heq⟩
  · exact hold v' (heq ▸ hstored) fun v => by simp
  · exact hold v' (heq ▸ hstored) fun v => by simp
  · exact hold v' (heq ▸ hstored) fun v => by simp
  · rw [heq, update_apply] at hstored
    split_ifs at hstored with haddr
    · subst haddr
      rw [hst, h.read_store v hf hf, if_pos rfl]
      exact hstored
    · exact hold v' hstored fun v₀ hop => haddr (by injection hop with h1; exact h1.symm)

end

/-! ## Runs -/

def faultStart (st : State) : FaultWorld := ⟨st, [], fun _ => none⟩

/-- The mapped pages and the bytes stored in them are kept in a run exactly if no fault is handled for a
page that is mapped. -/
theorem faults_keep_writes_iff {M : Machine} {st : State} (h : PrivateSpace M st)
    {ops : List FaultOp} {w : FaultWorld} (hrun : run (faultStep M) (faultStart st) ops = some w) :
    NoLostWrites M (faultStart st) ops ↔ Meets (faultStep M) FirstFault (faultStart st) ops := by
  have hiff : Meets (faultStep M) (KeepsPages M) (faultStart st) ops ↔
      Meets (faultStep M) FirstFault (faultStart st) ops :=
    meets_iff_of_run (I := fun w => PrivateSpace M w.st)
      (fun w op w' hw hs => ⟨firstFault_of_keepsPages hw hs, keepsPages_of_firstFault hw⟩)
      (fun _ _ _ hw _ hs => faultStep_private hw hs) h hrun
  refine ⟨fun hlost => hiff.mp hlost.1, fun hfirst => ⟨hiff.mpr hfirst, fun w' hrun' => ?_⟩⟩
  refine (run_induction_of_meets (I := fun w => PrivateSpace M w.st ∧ KeepsWrites w) ?_
    ⟨h, fun addr v hv => ?_⟩ (hiff.mpr hfirst) hrun').2
  · rintro s op s' ⟨hpriv, hkeeps⟩ hkeep hs
    exact ⟨faultStep_private hpriv hs, keepsWrites_step hpriv hs hkeep hkeeps⟩
  · cases hv

def sampleFaultSpace : State where
  as := ⟨[⟨.vnode, 0x1000, 0x1000, vmmProtFull, vmmMapPrivate ||| vmmMapAnon, none, 0⟩], 0,
    archUserMaxVirt⟩
  pages _ := none
  store := ⟨fun _ _ => 0, fun _ _ => none, 0⟩
  low _ _ := 0

def sampleFaultMachine : Machine where
  vnodes _ := File.vnode ⟨0, fun _ => 0⟩ false
  frames n := n * archPageGran
  injective := mul_archPageGran_injective
  aligned := mul_archPageGran_mod

def sampleFaultOps : List FaultOp :=
  [.raise 0x1000, .handle 0x1000, .store 0x1000 7, .store 0x1001 8]

theorem faults_keep_writes_iff_sample :
    NoLostWrites sampleFaultMachine (faultStart sampleFaultSpace) sampleFaultOps := by
  have hpriv : PrivateSpace sampleFaultMachine sampleFaultSpace :=
    privateSpace_of_unmapped (by decide) (fun _ => rfl) fun vn po g n hc => by cases hc
  obtain ⟨w, hrun⟩ : ∃ w, run (faultStep sampleFaultMachine) (faultStart sampleFaultSpace)
      sampleFaultOps = some w := ⟨_, rfl⟩
  refine (faults_keep_writes_iff hpriv hrun).mpr ⟨trivial, fun s₁ hs₁ => ?_⟩
  cases hs₁
  refine ⟨Or.inl rfl, fun s₂ hs₂ => ?_⟩
  cases hs₂
  exact ⟨trivial, fun s₃ hs₃ => ⟨trivial, fun _ _ => trivial⟩⟩

/-- Two threads fault on the page before either fault is handled. What the first stores in between is
lost when the second fault is handled. -/
theorem second_fault_loses_store :
    (run (faultStep sampleFaultMachine) (faultStart sampleFaultSpace)
      [.raise 0x1000, .raise 0x1000, .handle 0x1000, .store 0x1000 7]).bind
        (fun w => w.st.read 0x1000) = some 7 ∧
    (run (faultStep sampleFaultMachine) (faultStart sampleFaultSpace)
      [.raise 0x1000, .raise 0x1000, .handle 0x1000, .store 0x1000 7, .handle 0x1000]).bind
        (fun w => w.st.read 0x1000) = some 0 := by
  decide +kernel

end LykOS.Vmm
