import LykOS.Arch.X8664.Ptm.Tables
import LykOS.Fs.Vfs.Read
import LykOS.Mm.Vmm.Model

/-!
# Page faults and population

`vmm_pagefault_handler` and the rest of `vmm_mmap`, which populates the pages of a mapping. The page table
of an address space is the finite map that its tables refine on canonical pages
(`LykOS.Arch.X8664.Ptm.Runs`). Both functions install a page in the same way, and differ in where they take
it from: `installPrivate` and `installShared` have the offset into the vnode as a parameter.
-/

namespace LykOS.Vmm

open Vfs X8664

/-- An address space with its page table, memory and the page caches. `low` is the memory where a shared
page is read, without `HHDM`. -/
structure State where
  as : AddrSpace
  pages : ℕ → Option ℕ
  store : Store
  low : ℕ → ℕ → UInt8

/-- `arch_ptm_map(&as->ptm_map, virt, phys, ARCH_PAGE_GRAN)`. -/
def State.map (st : State) (virt phys : ℕ) : Option State := do
  guard (CanonicalPage virt)
  guard (phys % archPageGran = 0)
  return { st with pages := Function.update st.pages virt (some phys) }

/-- Byte `k` of the page at `virt`. -/
def State.byte? (st : State) (virt k : ℕ) : Option UInt8 :=
  (st.pages virt).map fun frame => st.store.mem frame k

/-- A private page: a new frame that is cleared, or read from the vnode at `offset`. The status of
`vfs_read` is not looked at. -/
def installPrivate (M : Machine) (st : State) (flags : ℕ) (vnode : Option ℕ) (virt offset : ℕ) :
    Option State := do
  let phys := M.frames st.store.taken
  let st ← State.map { st with store := st.store.alloc } virt phys
  if hasFlag flags vmmMapAnon then return { st with store := st.store.setMem phys fun _ => 0 }
  else do
    let r ← vfsRead M st.store (← vnode) offset (st.store.mem phys) archPageGran
    return { st with store := r.store.setMem phys r.buffer }

/-- A shared page: the one in the page cache at `pageOffset`, or a new one. -/
def installShared (M : Machine) (st : State) (vn virt pageOffset : ℕ) : Option State :=
  match st.store.pageCache vn pageOffset with
  | some frame => st.map virt frame
  | none => do
    let frame := M.frames st.store.taken
    let r ← vfsRead M st.store.alloc vn pageOffset (st.low frame) archPageGran
    let store := r.store.addPage vn pageOffset frame
    State.map { st with store, low := Function.update st.low frame r.buffer } virt frame

/-- `vmm_pagefault_handler`; a fault on a kernel segment panics. -/
def vmmPagefaultHandler (M : Machine) (st : State) (addr : ℕ) : Option (Bool × State) :=
  match vmmAddrToSeg st.as addr with
  | none => some (false, st)
  | some seg => do
    guard (seg.type ≠ .kernel)
    let virt := floorTo addr archPageGran
    let st ← if hasFlag seg.flags vmmMapPrivate
      then installPrivate M st seg.flags seg.vnode virt (u64 (addr - seg.base + seg.offset))
      else do installShared M st (← seg.vnode) virt (u64 (seg.offset + (virt - seg.base)))
    return (true, st)

/-- One round of the loop of `vmm_mmap`. -/
def populatePage (M : Machine) (a : MmapArgs) (virt : ℕ) (st : State) (i : ℕ) : Option State :=
  if hasFlag a.flags vmmMapPrivate
  then installPrivate M st a.flags a.vnode (u64 (virt + i)) (u64 (a.offset + i))
  else do installShared M st (← a.vnode) (u64 (virt + i)) (u64 (a.offset + i))

/-- The loop of `vmm_mmap`; the length is a multiple of the page size. -/
def populate (M : Machine) (a : MmapArgs) (virt : ℕ) (st : State) (n : ℕ) : Option State :=
  (List.range n).foldlM (fun st j => populatePage M a virt st (j * archPageGran)) st

def vmmMmap (M : Machine) (st : State) (a : MmapArgs) : Option (Option ℕ × State) := do
  match ← mmapPlace st.as a with
  | (none, as) => return (none, { st with as })
  | (some virt, as) =>
    if hasFlag a.flags vmmMapPopulate then do
      let st ← populate M a virt { st with as } (a.len / archPageGran)
      return (some virt, st)
    else return (some virt, { st with as })

/-! ## Private pages -/

theorem State.map_eq {st : State} {virt phys : ℕ} (hv : CanonicalPage virt)
    (hp : phys % archPageGran = 0) :
    st.map virt phys = some { st with pages := Function.update st.pages virt (some phys) } := by
  unfold State.map
  rw [show (guard (CanonicalPage virt) : Option Unit) = some () from if_pos hv,
    show (guard (phys % archPageGran = 0) : Option Unit) = some () from if_pos hp]
  rfl

/-- The page at `virt` is in the next frame, with bytes that satisfy `P`. -/
structure Installed (M : Machine) (virt : ℕ) (P : (ℕ → UInt8) → Prop) (st st' : State) : Prop where
  pages : st'.pages = Function.update st.pages virt (some (M.frames st.store.taken))
  bytes : P (st'.store.mem (M.frames st.store.taken))
  taken : st.store.taken < st'.store.taken
  grows : Grows M st.store st'.store

section

variable {M : Machine} {st : State} {flags virt offset : ℕ}

theorem installPrivate_anon (hanon : hasFlag flags vmmMapAnon = true) (vnode : Option ℕ)
    (hv : CanonicalPage virt) :
    ∃ st', installPrivate M st flags vnode virt offset = some st' ∧
      Installed M virt (fun bytes => ∀ k, bytes k = 0) st st' := by
  simp only [installPrivate, State.map_eq hv (M.aligned _), Option.bind_eq_bind, Option.bind_some,
    if_pos hanon]
  refine ⟨_, rfl, rfl, fun k => ?_, Nat.lt_succ_self _, grows_alloc_setMem M st.store _⟩
  rw [setMem_self]

theorem installPrivate_file {vn : ℕ} {f : File} {cached : Bool} {c : ℕ → Option UInt8}
    {G : UInt8 → Prop} (hfile : hasFlag flags vmmMapAnon = false) (hv : CanonicalPage virt)
    (h : Holds M vn f cached c G st.store) :
    ∃ st', installPrivate M st flags (some vn) virt offset = some st' ∧
      Installed M virt (fun bytes =>
        ∀ k < archPageGran, IsByte c G (position cached offset k) (bytes k)) st st' ∧
      Holds M vn f cached c G st'.store := by
  let phys := M.frames st.store.taken
  have hbuf : ∀ k, G (st.store.alloc.mem phys k) := fun k => h.free _ k le_rfl
  obtain ⟨r, hr, hholds, hgrows, hbytes⟩ :=
    vfsRead_spec h.alloc offset archPageGran hbuf
  have hlt : st.store.taken < r.store.taken := hgrows.taken
  -- the frame of the page is neither free nor in the cache when its bytes are there
  have hfree : ∀ n, r.store.taken ≤ n → M.frames n ≠ phys := fun n hn =>
    frames_ne_of_alloc M st.store (Nat.le_trans hgrows.taken hn)
  have hcache : ∀ po, r.store.pageCache vn po ≠ some phys := by
    intro po hpo
    rcases hgrows.cache vn po phys hpo with hold | ⟨n, hn, heq⟩
    · exact h.used po phys _ hold le_rfl rfl
    · exact frames_ne_of_alloc M st.store hn heq
  have hrun : installPrivate M st flags (some vn) virt offset = some
      ⟨st.as, Function.update st.pages virt (some phys), r.store.setMem phys r.buffer, st.low⟩ := by
    simp only [installPrivate, State.map_eq hv (M.aligned _), Option.bind_eq_bind, Option.bind_some,
      hfile, Bool.false_eq_true, if_false]
    rw [hr]
    rfl
  refine ⟨_, hrun, ⟨rfl, fun k hk => ?_, hlt, ?_⟩, hholds.setMem hfree hcache r.buffer⟩
  · rw [setMem_self]
    exact hbytes k hk
  · refine ⟨Nat.le_of_lt hlt, fun g hg => ?_, fun vn po g hpo => ?_⟩
    · rw [setMem_of_ne r.store (hg _ le_rfl).symm,
        hgrows.mem g fun n hn => hg n (Nat.le_of_succ_le hn)]
      rfl
    · rcases hgrows.cache vn po g hpo with hold | ⟨n, hn, heq⟩
      · exact Or.inl hold
      · exact Or.inr ⟨n, Nat.le_of_succ_le hn, heq⟩

theorem installPrivate_grows {vnode : Option ℕ} {st' : State} (hused : CacheUsed M st.store)
    (h : installPrivate M st flags vnode virt offset = some st') :
    Installed M virt (fun _ => True) st st' ∧ st'.as = st.as ∧ CacheUsed M st'.store ∧
      ∀ vn po, st'.store.pageCache vn po ≠ some (M.frames st.store.taken) := by
  have hnew : ∀ vn po, st.store.pageCache vn po ≠ some (M.frames st.store.taken) :=
    fun vn po hpo => hused vn po _ _ hpo le_rfl rfl
  simp only [installPrivate, State.map, Option.bind_eq_bind, Option.bind_eq_some_iff,
    Option.pure_def, Option.some.injEq] at h
  obtain ⟨_, ⟨_, -, _, -, rfl⟩, h⟩ := h
  split_ifs at h with hanon
  · cases h
    exact ⟨⟨rfl, trivial, Nat.lt_succ_self _, grows_alloc_setMem M st.store _⟩, rfl,
      hused.alloc_setMem _ _, hnew⟩
  · simp only [Option.bind_eq_some_iff, Option.some.injEq] at h
    obtain ⟨vn, -, r, hr, rfl⟩ := h
    obtain ⟨hgrows, hcache⟩ := vfsRead_grows hr
    have halloc : Grows M st.store st.store.alloc :=
      ⟨Nat.le_succ _, fun _ _ => rfl, fun _ _ _ h => Or.inl h⟩
    have hall := halloc.trans hgrows
    refine ⟨⟨rfl, trivial, hgrows.taken, hall.taken, fun g hg => ?_, hall.cache⟩, rfl, ?_, ?_⟩
    · exact (setMem_of_ne r.store (hg _ le_rfl).symm _).trans (hall.mem g hg)
    · exact hcache fun vn po g n hpo hn => hused vn po g n hpo (Nat.le_of_succ_le hn)
    · intro vn po hpo
      rcases hgrows.cache vn po _ hpo with hold | ⟨n, hn, heq⟩
      · exact hnew vn po hold
      · exact frames_ne_of_alloc M st.store hn heq

end

/-! ## The loop of `vmm_mmap` -/

/-- If each round keeps `Good` and installs a page with bytes as in `P`, all pages have such bytes at the
end: later rounds take other frames and map other pages. -/
theorem populate_spec {M : Machine} {a : MmapArgs} {virt : ℕ} {Good : Store → Prop}
    {P : ℕ → (ℕ → UInt8) → Prop} {n : ℕ} (st : State) (hgood : Good st.store)
    (hstep : ∀ j < n, ∀ st : State, Good st.store →
      ∃ st', populatePage M a virt st (j * archPageGran) = some st' ∧
        Installed M (virt + j * archPageGran) (P j) st st' ∧ Good st'.store) :
    ∃ st', populate M a virt st n = some st' ∧ Good st'.store ∧
      ∀ j < n, ∃ g, st'.pages (virt + j * archPageGran) = some g ∧ P j (st'.store.mem g) ∧
        ∀ m, st'.store.taken ≤ m → M.frames m ≠ g := by
  unfold populate
  induction n with
  | zero => exact ⟨st, rfl, hgood, fun j hj => absurd hj (Nat.not_lt_zero j)⟩
  | succ n ih =>
    obtain ⟨st1, hrun, hgood1, hpages⟩ := ih fun j hj => hstep j (Nat.lt_succ_of_lt hj)
    obtain ⟨st2, hst2, hinst, hgood2⟩ := hstep n (Nat.lt_succ_self n) st1 hgood1
    refine ⟨st2, ?_, hgood2, fun j hj => ?_⟩
    · rw [List.range_succ, List.foldlM_append, hrun]
      simp only [Option.bind_eq_bind, Option.bind_some, List.foldlM_cons, List.foldlM_nil, hst2]
      rfl
    · rcases Nat.lt_succ_iff_lt_or_eq.mp hj with hlt | rfl
      · obtain ⟨g, hg, hP, hfree⟩ := hpages j hlt
        refine ⟨g, ?_, ?_, fun m hm => hfree m (Nat.le_trans hinst.grows.taken hm)⟩
        · have hne : virt + j * archPageGran ≠ virt + n * archPageGran := by
            unfold archPageGran
            omega
          rw [hinst.pages, Function.update_of_ne hne, hg]
        · rwa [hinst.grows.mem g hfree]
      · refine ⟨_, by rw [hinst.pages, Function.update_self], hinst.bytes, fun m hm heq => ?_⟩
        exact absurd (M.injective heq) (Nat.ne_of_gt (Nat.lt_of_lt_of_le hinst.taken hm))

end LykOS.Vmm
