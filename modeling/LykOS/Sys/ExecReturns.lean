import LykOS.Mm.Vmm.Gaps
import LykOS.Mm.Vmm.Mapped
import LykOS.Sys.Exec

/-!
# Executables that make `exec_load` panic

`exec_load` ignores what `vmm_mmap` and `read` return, and trusts the headers. Which files it survives is
decided by where the segments come to lie: `layout` are the ranges that `vmm_mmap` accepts, header by
header, and `Loadable` says that the table fits into the heap's largest object, that there are frames for
the ranges and a block for each buffer, and that the bytes of each segment go to pages that are mapped by
then. On these `exec_load`
returns a process, and on no others, as long as no segment is copied out of the user's half
(`exec_load_returns_iff`).
-/

namespace LykOS.Exec

open Vfs Vmm Elf Interval X8664 List
open Option hiding guard

/-- `proc_new`: the page tables share the kernel's half. -/
def procShared (st : State) : State :=
  { procNew st with pages := fun p => if p ≤ archUserMaxVirt then none else st.pages p }

/-! ## Layouts -/

/-- The range that `vmm_mmap` is asked for, as address and length. -/
def range (ph : Phdr) : ℕ × ℕ := ((segmentArgs ph).virt, (segmentArgs ph).len)

/-- `vmm_mmap` accepts the range: it collides with none that is there, and is in bounds. -/
def Accepts (lay : List (ℕ × ℕ)) (r : ℕ × ℕ) : Prop :=
  (∀ s ∈ lay, ¬ (s.1 ≤ lastByte r.1 r.2 ∧ r.1 ≤ lastByte s.1 s.2)) ∧ u64 (r.1 + r.2) ≤ archUserMaxVirt

instance (lay : List (ℕ × ℕ)) (r : ℕ × ℕ) : Decidable (Accepts lay r) :=
  inferInstanceAs (Decidable (_ ∧ _))

/-- The ranges that are mapped once a header is done. -/
def layStep (lay : List (ℕ × ℕ)) (ph : Phdr) : List (ℕ × ℕ) :=
  if Loads ph ∧ Accepts lay (range ph) then range ph :: lay else lay

def layout (ph : ℕ → Phdr) : ℕ → List (ℕ × ℕ)
  | 0 => []
  | n + 1 => layStep (layout ph n) (ph n)

def Covered (lay : List (ℕ × ℕ)) (p : ℕ) : Prop :=
  ∃ r ∈ lay, IsPage r.1 (r.2 / archPageGran) p

instance (lay : List (ℕ × ℕ)) (p : ℕ) : Decidable (Covered lay p) :=
  inferInstanceAs (Decidable (∃ r ∈ lay, IsPage r.1 (r.2 / archPageGran) p))

def framesOf (lay : List (ℕ × ℕ)) : ℕ := (lay.map fun r => r.2 / archPageGran).sum

/-- Program header `i` as `exec_load` sees it. -/
def seen (junk : Junk) (f : File) (i : ℕ) : Phdr := Phdr.decode (tableOf junk f) (i * sizeofPhdr)

/-- The table of headers, the segments and the frames are such that nothing fails. -/
structure Loadable (M : Memory) (junk : Junk) (st : State) (f : File) : Prop where
  table_le : (Ehdr.decode f.bytes).phentsize * (Ehdr.decode f.bytes).phnum ≤ 1024
  filesz_le : ∀ i < (Ehdr.decode f.bytes).phnum, Loads (seen junk f i) →
    (seen junk f i).filesz ≤ 4 * 1024 * 1024
  covered : ∀ i < (Ehdr.decode f.bytes).phnum, Loads (seen junk f i) → ∀ k < (seen junk f i).filesz,
    Covered (layout (seen junk f) (i + 1)) (destPage (seen junk f i).vaddr k)
  blocks : ∀ i < (Ehdr.decode f.bytes).phnum, Loads (seen junk f i) →
    M.block (st.store.taken + framesOf (layout (seen junk f) (i + 1)))
  frames : st.store.taken + framesOf (layout (seen junk f) (Ehdr.decode f.bytes).phnum) + 9 ≤ M.limit

/-- No segment is copied out of the user's half. -/
def UserCopies (junk : Junk) (f : File) : Prop :=
  ∀ i < (Ehdr.decode f.bytes).phnum, Loads (seen junk f i) → ∀ k < (seen junk f i).filesz,
    u64 ((seen junk f i).vaddr + k) ≤ archUserMaxVirt

/-! ## Ranges -/

/-- What all ranges that are accepted have in common. -/
structure Ranged (r : ℕ × ℕ) : Prop where
  base : r.1 % archPageGran = 0
  len : r.2 % archPageGran = 0
  base_lt : r.1 < 2 ^ 64
  len_lt : r.2 < 2 ^ 64
  stop : u64 (r.1 + r.2) ≤ archUserMaxVirt

theorem range_lt {ph : Phdr} (h : ph.vaddr < 2 ^ 64) : (range ph).1 < 2 ^ 64 ∧ (range ph).2 < 2 ^ 64 := by
  unfold range segmentArgs floorTo archPageGran
  exact ⟨by dsimp only; omega, u64_lt _⟩

theorem ranged_of_accepts {lay : List (ℕ × ℕ)} {ph : Phdr} (h : ph.vaddr < 2 ^ 64)
    (hacc : Accepts lay (range ph)) : Ranged (range ph) := by
  obtain ⟨hbase, hlen⟩ := segmentArgs_aligned ph
  obtain ⟨hbase_lt, hlen_lt⟩ := range_lt h
  exact ⟨hbase, hlen, hbase_lt, hlen_lt, hacc.2⟩

theorem Ranged.canonical {M : Memory} {r : ℕ × ℕ} (h : Ranged r) (hframes : r.2 / archPageGran ≤ M.limit)
    {p : ℕ} (hp : IsPage r.1 (r.2 / archPageGran) p) : CanonicalPage p := by
  obtain ⟨j, hj, rfl⟩ := hp
  have hlimit := M.limit_le
  obtain ⟨hbase, hlen, hbase_lt, hlen_lt, hstop⟩ := h
  unfold CanonicalPage Canonical
  unfold u64 archUserMaxVirt archPageGran gib at *
  omega

/-! ## Mapping the segments -/

/-- The ranges of `lay` are mapped, from when `base` frames had been taken, and nothing else in the
user's half is. -/
structure Laid (base : ℕ) (lay : List (ℕ × ℕ)) (st : State) : Prop where
  limits : st.as.limitLow = archUserMinVirt ∧ st.as.limitHigh = archUserMaxVirt
  segs : (st.as.segments.map fun s => (s.base, s.len)).Perm lay
  ranged : ∀ r ∈ lay, Ranged r
  taken : st.store.taken = base + framesOf lay
  mapped : ∀ p, Covered lay p → st.pages p ≠ none
  user : ∀ p ≤ archUserMaxVirt, st.pages p ≠ none → Covered lay p

section

variable {M : Memory} {base : ℕ} {lay : List (ℕ × ℕ)} {st : State} {ph : Phdr}

theorem laid_nil (st : State) : Laid st.store.taken [] (procShared st) where
  limits := ⟨rfl, rfl⟩
  segs := List.Perm.refl _
  ranged := fun _ h => absurd h not_mem_nil
  taken := rfl
  mapped := by
    rintro p ⟨r, hr, -⟩
    exact absurd hr not_mem_nil
  user := by
    intro p hp h
    exact absurd (if_pos hp) h

theorem Laid.samePages {st' : State} (h : Laid base lay st) (hsame : SamePages st st') :
    Laid base lay st' := by
  obtain ⟨has, hpages, htaken⟩ := hsame
  refine ⟨by rw [has]; exact h.limits, by rw [has]; exact h.segs, h.ranged, htaken.trans h.taken, ?_, ?_⟩
  · rw [hpages]
    exact h.mapped
  · rw [hpages]
    exact h.user

theorem Laid.refused_iff (h : Laid base lay st) :
    mmapRefused st.as (segmentArgs ph) = false ↔ Accepts lay (range ph) := by
  have hcoll : vmmCheckCollision st.as (range ph).1 (range ph).2 = false ↔
      ∀ s ∈ lay, ¬ (s.1 ≤ lastByte (range ph).1 (range ph).2 ∧ (range ph).1 ≤ lastByte s.1 s.2) := by
    unfold vmmCheckCollision
    rw [List.any_eq_false]
    constructor
    · intro hall s hs
      obtain ⟨seg, hseg, rfl⟩ := List.mem_map.mp (h.segs.mem_iff.mpr hs)
      exact fun hc => hall seg hseg (decide_eq_true hc)
    · intro hall seg hseg hc
      exact hall _ (h.segs.mem_iff.mp (List.mem_map_of_mem hseg)) (of_decide_eq_true hc)
  have hbounds : vmmIsInBounds st.as (range ph).1 (range ph).2 = true ↔
      u64 ((range ph).1 + (range ph).2) ≤ archUserMaxVirt := by
    rw [vmmIsInBounds, decide_eq_true_eq, h.limits.1, h.limits.2, not_or, Nat.not_lt, Nat.not_lt]
    exact and_iff_right (Nat.zero_le _)
  show (vmmCheckCollision st.as (range ph).1 (range ph).2 || !vmmIsInBounds st.as (range ph).1 (range ph).2) =
    false ↔ _
  rw [Bool.or_eq_false_iff, hcoll, Bool.not_eq_false', hbounds]
  rfl

theorem framesOf_cons (r : ℕ × ℕ) (lay : List (ℕ × ℕ)) :
    framesOf (r :: lay) = r.2 / archPageGran + framesOf lay := sum_cons

theorem covered_cons {r : ℕ × ℕ} {p : ℕ} :
    Covered (r :: lay) p ↔ IsPage r.1 (r.2 / archPageGran) p ∨ Covered lay p := by
  unfold Covered
  simp only [mem_cons, exists_eq_or_imp]

theorem Laid.cons (h : Laid base lay st) (hv : ph.vaddr < 2 ^ 64) (hacc : Accepts lay (range ph))
    {st' : State} (hst' : Populated (range ph).1 ((range ph).2 / archPageGran)
      { st with as := vmmInsertSeg st.as (mmapSegment (segmentArgs ph) (segmentArgs ph).virt) } st') :
    Laid base (range ph :: lay) st' := by
  refine ⟨by rw [hst'.as]; exact h.limits, ?_, fun r hr => ?_, ?_, fun p hp => ?_, fun p hle hp => ?_⟩
  · rw [hst'.as]
    have hperm := (insertByBase_perm Seg.base (mmapSegment (segmentArgs ph) (segmentArgs ph).virt)
      st.as.segments).map fun s => (s.base, s.len)
    rw [map_cons] at hperm
    exact hperm.trans (h.segs.cons _)
  · rcases mem_cons.mp hr with rfl | hr
    · exact ranged_of_accepts hv hacc
    · exact h.ranged r hr
  · rw [hst'.taken, framesOf_cons]
    show st.store.taken + _ = _
    rw [h.taken]
    omega
  · rw [hst'.pages]
    rcases covered_cons.mp hp with hp | hp
    · exact Or.inr hp
    · exact Or.inl (h.mapped p hp)
  · rcases (hst'.pages p).mp hp with hp | hp
    · exact covered_cons.mpr (Or.inr (h.user p hle hp))
    · exact covered_cons.mpr (Or.inl hp)

theorem mmap_of_place (M : Memory) {a : MmapArgs} {virt : ℕ} {as' : AddrSpace}
    (hplace : mmapPlace st.as a = some (some virt, as'))
    (hpopulate : hasFlag a.flags vmmMapPopulate = true) :
    mmap M st a = ((populate M.toMachine a virt { st with as := as' } (a.len / archPageGran)).bind
      (within M)).map (some virt, ·) := by
  simp only [mmap, vmmMmap, hplace, if_pos hpopulate, bind_eq_bind, Option.bind_some,
    Option.pure_def, map_eq_bind, bind_assoc]
  rfl

theorem mmap_of_refused (M : Memory) {a : MmapArgs} (hok : mmapAsserts a = true)
    (hrefused : mmapRefused st.as a = true) (hfixed : hasFlag a.flags vmmMapFixed = true) :
    mmap M st a = (within M st).map (none, ·) := by
  simp only [mmap, vmmMmap, mmapPlace_of_failed hok hrefused hfixed, bind_eq_bind,
    Option.bind_some, Option.pure_def, map_eq_bind]
  rfl

theorem Laid.mmap (h : Laid base lay st) (hph : Loads ph) (hv : ph.vaddr < 2 ^ 64) :
    (base + framesOf (layStep lay ph) ≤ M.limit →
        ∃ virt st', mmap M st (segmentArgs ph) = some (virt, st') ∧ Laid base (layStep lay ph) st') ∧
      (¬ base + framesOf (layStep lay ph) ≤ M.limit → mmap M st (segmentArgs ph) = none) := by
  by_cases hacc : Accepts lay (range ph)
  · have hplace := mmapPlace_of_accepted (segmentArgs_asserts ph) (h.refused_iff.mpr hacc)
    rw [layStep, if_pos ⟨hph, hacc⟩, mmap_of_place M hplace (segmentArgs_anonymous ph).populate]
    obtain ⟨hsome, hnone⟩ := @populate_anonymous M.toMachine _ (segmentArgs ph).virt
      (segmentArgs_anonymous ph)
      { st with as := vmmInsertSeg st.as (mmapSegment (segmentArgs ph) (segmentArgs ph).virt) }
      ((segmentArgs ph).len / archPageGran)
    refine ⟨fun hfit => ?_, fun hfit => ?_⟩
    · have hranged := ranged_of_accepts hv hacc
      have hframes : (range ph).2 / archPageGran ≤ M.limit := by
        rw [framesOf_cons] at hfit
        omega
      obtain ⟨st', hrun, hst'⟩ := hsome fun p hp => hranged.canonical hframes hp
      have hlaid := h.cons hv hacc hst'
      have hwithin := within_of_le (hlaid.taken ▸ hfit)
      refine ⟨some (segmentArgs ph).virt, st', ?_, hlaid⟩
      rw [hrun, Option.bind_some, hwithin]
      rfl
    · by_cases hcan : ∀ p, IsPage (segmentArgs ph).virt ((segmentArgs ph).len / archPageGran) p →
          CanonicalPage p
      · obtain ⟨st', hrun, hst'⟩ := hsome hcan
        have hlaid := h.cons hv hacc hst'
        have hwithin := within_of_not_le (hlaid.taken ▸ hfit)
        rw [hrun, Option.bind_some, hwithin]
        rfl
      · rw [hnone hcan]
        rfl
  · have hrefused : mmapRefused st.as (segmentArgs ph) = true := by
      rw [← Bool.not_eq_false, h.refused_iff]
      exact hacc
    have hfixed : hasFlag (segmentArgs ph).flags vmmMapFixed = true :=
      show hasFlag segmentFlags vmmMapFixed = true by decide
    rw [layStep, if_neg fun hc => hacc hc.2, mmap_of_refused M (segmentArgs_asserts ph) hrefused hfixed,
      ← h.taken]
    refine ⟨fun hfit => ⟨none, st, ?_, h⟩, fun hfit => ?_⟩
    · rw [within_of_le hfit]
      rfl
    · rw [within_of_not_le hfit]
      rfl

/-! ## Loading the segments -/

theorem Laid.addrToSeg_eq_none (h : Laid base lay st) {addr : ℕ}
    (hnone : st.pages (floorTo addr archPageGran) = none) : vmmAddrToSeg st.as addr = none := by
  unfold vmmAddrToSeg
  rw [find?_eq_none]
  intro seg hseg hc
  obtain ⟨hlo, hhi⟩ := of_decide_eq_true hc
  have hmem : (seg.base, seg.len) ∈ lay := h.segs.mem_iff.mp (List.mem_map_of_mem hseg)
  obtain ⟨hbase, hlen, hbase_lt, hlen_lt, -⟩ := h.ranged _ hmem
  refine h.mapped _ ⟨_, hmem, (addr - seg.base) / archPageGran, ?_, ?_⟩ hnone
  · unfold u64 archPageGran at *
    omega
  · unfold u64 floorTo archPageGran at *
    omega

theorem Laid.loadSegment (h : Laid base lay st) (hph : Loads ph) (hv : ph.vaddr < 2 ^ 64) (file : Vnode)
    (buf : ℕ → UInt8) (hfit : base + framesOf (layStep lay ph) ≤ M.limit)
    (hsize : ph.filesz ≤ 4 * 1024 * 1024) (hblock : M.block (base + framesOf (layStep lay ph)))
    (hcov : ∀ k < ph.filesz, Covered (layStep lay ph) (destPage ph.vaddr k)) :
    ∃ st', loadSegment M file buf st ph = some st' ∧ Laid base (layStep lay ph) st' := by
  obtain ⟨virt, st1, hmmap, hst1⟩ := (h.mmap hph hv).1 hfit
  obtain ⟨c, st2, hcopy, hsame⟩ := @copyLoop_mapped M.toMachine ph.vaddr ph.filesz
    (fill buf (file.read ph.offset ph.filesz).2) _ 0 st1 (Nat.lt_succ_self _)
    fun k _ hk => hst1.mapped _ (hcov k hk)
  have hguard : (guard (ph.filesz ≤ Pmm.pmmOrderToPagecount bufOrder * archPageGran) : Option Unit) =
      some () := if_pos hsize
  have hbuf : (guard (M.block st1.store.taken = true) : Option Unit) = some () :=
    if_pos (hst1.taken ▸ hblock)
  refine ⟨st2, ?_, hst1.samePages hsame⟩
  rw [Nat.sub_zero] at hcopy
  simp only [Exec.loadSegment, hmmap, hguard, hbuf, vmmCopyTo, hcopy, bind_eq_bind, Option.bind_some,
    Option.pure_def]

theorem Laid.of_loadSegment (h : Laid base lay st) (hph : Loads ph) (hv : ph.vaddr < 2 ^ 64)
    {file : Vnode} {buf : ℕ → UInt8} {st' : State} (hrun : Exec.loadSegment M file buf st ph = some st')
    (huser : ∀ k < ph.filesz, u64 (ph.vaddr + k) ≤ archUserMaxVirt) :
    Laid base (layStep lay ph) st' ∧ ph.filesz ≤ 4 * 1024 * 1024 ∧
      M.block (base + framesOf (layStep lay ph)) ∧
      ∀ k < ph.filesz, Covered (layStep lay ph) (destPage ph.vaddr k) := by
  obtain ⟨⟨virt, st1⟩, hmmap, hrun⟩ := bind_eq_some_iff.mp hrun
  obtain ⟨_, hguard, hrun⟩ := bind_eq_some_iff.mp hrun
  obtain ⟨_, hbuf, hrun⟩ := bind_eq_some_iff.mp hrun
  obtain ⟨⟨c, st2⟩, hcopy, hrun⟩ := bind_eq_some_iff.mp hrun
  cases hrun
  have hfit : base + framesOf (layStep lay ph) ≤ M.limit := by
    by_contra hn
    cases hmmap.symm.trans ((h.mmap hph hv).2 hn)
  obtain ⟨_, st1', hmmap', hst1⟩ := (h.mmap hph hv).1 hfit
  cases hmmap.symm.trans hmmap'
  have hmapped := copyLoop_some (fun k _ hk => hst1.addrToSeg_eq_none hk) hcopy
  obtain ⟨c', st2', hcopy', hsame⟩ := copyLoop_mapped (Nat.lt_succ_self (ph.filesz - 0)) hmapped
  rw [Nat.sub_zero] at hcopy'
  cases hcopy.symm.trans hcopy'
  refine ⟨hst1.samePages hsame, (guard_eq_some' _).mp hguard,
    hst1.taken ▸ (guard_eq_some' _).mp hbuf, fun k hk => ?_⟩
  refine hst1.user _ ?_ (hmapped k (Nat.zero_le k) hk)
  exact (Nat.div_mul_le_self _ _).trans (huser k hk)

/-! ## The rounds -/

variable {phs : ℕ → Phdr} {table : ℕ → UInt8} {n : ℕ} {junk : Junk} {file : Vnode}

theorem framesOf_layout_succ (phs : ℕ → Phdr) (n : ℕ) :
    framesOf (layout phs n) ≤ framesOf (layout phs (n + 1)) := by
  rw [layout, layStep]
  split_ifs
  · rw [framesOf_cons]
    exact Nat.le_add_left _ _
  · exact Nat.le_refl _

theorem vaddr_lt (hdecode : ∀ i, Phdr.decode table (i * sizeofPhdr) = phs i) (i : ℕ) :
    (phs i).vaddr < 2 ^ 64 := by
  rw [← hdecode]
  exact Bytes.le_lt table (i * sizeofPhdr + 16) 8

theorem rounds_of_fits (hdecode : ∀ i, Phdr.decode table (i * sizeofPhdr) = phs i)
    (hsize : ∀ i < n, Loads (phs i) → (phs i).filesz ≤ 4 * 1024 * 1024)
    (hblock : ∀ i < n, Loads (phs i) → M.block (st.store.taken + framesOf (layout phs (i + 1))))
    (hcov : ∀ i < n, Loads (phs i) → ∀ k < (phs i).filesz,
      Covered (layout phs (i + 1)) (destPage (phs i).vaddr k))
    (hframes : st.store.taken + framesOf (layout phs n) ≤ M.limit) :
    ∃ st', (List.range n).foldlM (loadRound M junk file table) (procShared st) = some st' ∧
      Laid st.store.taken (layout phs n) st' := by
  induction n with
  | zero => exact ⟨procShared st, rfl, laid_nil st⟩
  | succ n ih =>
    have hmono := framesOf_layout_succ phs n
    obtain ⟨st1, hrun, hst1⟩ := ih (fun i hi => hsize i (by omega)) (fun i hi => hblock i (by omega))
      (fun i hi => hcov i (by omega)) (by omega)
    rw [foldlM_range_succ, hrun, Option.bind_some, loadRound_eq junk file (hdecode n)]
    by_cases hload : Loads (phs n)
    · rw [if_pos hload]
      exact hst1.loadSegment hload (vaddr_lt hdecode n) file (junk.buf n) hframes
        (hsize n (Nat.lt_succ_self n) hload) (hblock n (Nat.lt_succ_self n) hload)
        (hcov n (Nat.lt_succ_self n) hload)
    · rw [if_neg hload, layout, layStep, if_neg fun hc => hload hc.1]
      exact ⟨st1, rfl, hst1⟩

theorem fits_of_rounds (hdecode : ∀ i, Phdr.decode table (i * sizeofPhdr) = phs i)
    (huser : ∀ i < n, Loads (phs i) → ∀ k < (phs i).filesz, u64 ((phs i).vaddr + k) ≤ archUserMaxVirt) :
    ∀ {st'}, (List.range n).foldlM (loadRound M junk file table) (procShared st) = some st' →
      Laid st.store.taken (layout phs n) st' ∧ ∀ i < n, Loads (phs i) →
        (phs i).filesz ≤ 4 * 1024 * 1024 ∧ M.block (st.store.taken + framesOf (layout phs (i + 1))) ∧
          ∀ k < (phs i).filesz, Covered (layout phs (i + 1)) (destPage (phs i).vaddr k) := by
  induction n with
  | zero =>
    rintro _ ⟨⟩
    exact ⟨laid_nil st, fun i hi => absurd hi (Nat.not_lt_zero i)⟩
  | succ n ih =>
    intro st' hrun
    rw [foldlM_range_succ] at hrun
    obtain ⟨st1, hrun1, hround⟩ := bind_eq_some_iff.mp hrun
    obtain ⟨hst1, hall⟩ := ih (fun i hi => huser i (by omega)) hrun1
    rw [loadRound_eq junk file (hdecode n)] at hround
    split_ifs at hround with hload
    · obtain ⟨hst', hfile, hblock, hcov⟩ := hst1.of_loadSegment hload (vaddr_lt hdecode n) hround
        (huser n (Nat.lt_succ_self n) hload)
      refine ⟨hst', fun i hi => ?_⟩
      rcases Nat.lt_succ_iff_lt_or_eq.mp hi with hi | rfl
      · exact hall i hi
      · exact fun _ => ⟨hfile, hblock, hcov⟩
    · cases hround
      refine ⟨?_, fun i hi => ?_⟩
      · rw [layout, layStep, if_neg fun hc => hload hc.1]
        exact hst1
      · rcases Nat.lt_succ_iff_lt_or_eq.mp hi with hi | rfl
        · exact hall i hi
        · exact fun hc => absurd hc hload

/-! ## The stack -/

theorem Laid.findSpace (h : Laid base lay st) :
    vmmFindSpace st.as stackArgs.len % archPageGran = 0 ∧
      vmmFindSpace st.as stackArgs.len + stackArgs.len ≤ 2 ^ 47 := by
  have hlen : stackArgs.len = 0x8000 := rfl
  have hscan : scanSpace stackArgs.len st.as.limitLow st.as.segments % archPageGran = 0 ∧
      scanSpace stackArgs.len st.as.limitLow st.as.segments ≤ archUserMaxVirt := by
    refine scanSpace_cases (P := fun x => x % archPageGran = 0 ∧ x ≤ archUserMaxVirt) ?_ fun s hs => ?_
    · rw [h.limits.1]
      decide
    · obtain ⟨hbase, hslen, -, -, hstop⟩ := h.ranged _ (h.segs.mem_iff.mp (List.mem_map_of_mem hs))
      refine ⟨?_, hstop⟩
      unfold u64 archPageGran at *
      omega
  unfold vmmFindSpace
  dsimp only
  rw [h.limits.2]
  split_ifs with hempty hfit
  · rw [h.limits.1, hlen]
    decide
  · refine ⟨hscan.1, ?_⟩
    rw [hlen] at *
    unfold lastByte u64 archUserMaxVirt archPageGran at *
    omega
  · rw [hlen]
    decide

theorem Laid.threadNew_ne_none (h : Laid base lay st) (junk : Junk) :
    threadNew M junk st ≠ none ↔ st.store.taken + 9 ≤ M.limit := by
  obtain ⟨virt, hvirt⟩ : ∃ virt, virt =
      if mmapRefused st.as stackArgs then vmmFindSpace st.as stackArgs.len else stackArgs.virt := ⟨_, rfl⟩
  have hplace : mmapPlace (allocKernelStack M junk st).as stackArgs =
      some (some virt, vmmInsertSeg st.as (mmapSegment stackArgs virt)) := by
    rw [mmapPlace_of_not_fixed _ (by decide) (by decide), hvirt]
    rfl
  have hrange : virt % archPageGran = 0 ∧ virt + 0x8000 ≤ 2 ^ 47 := by
    rw [hvirt]
    split_ifs
    · exact h.findSpace
    · decide
  have hanon : stackArgs.IsAnonymous := ⟨by decide, by decide, by decide, rfl⟩
  have hcan : ∀ p, IsPage virt (stackArgs.len / archPageGran) p → CanonicalPage p := by
    rintro p ⟨j, hj, rfl⟩
    rw [show stackArgs.len / archPageGran = 8 by decide] at hj
    unfold CanonicalPage Canonical
    unfold u64 archPageGran at *
    omega
  obtain ⟨st', hrun, hst'⟩ := (@populate_anonymous M.toMachine stackArgs virt hanon
    ⟨vmmInsertSeg st.as (mmapSegment stackArgs virt), (allocKernelStack M junk st).pages,
      (allocKernelStack M junk st).store, (allocKernelStack M junk st).low⟩
    (stackArgs.len / archPageGran)).1 hcan
  have htaken : st'.store.taken = st.store.taken + 9 := hst'.taken
  rw [threadNew, mmap_of_place M hplace hanon.populate, hrun, Option.bind_some]
  by_cases hfit : st.store.taken + 9 ≤ M.limit
  · rw [within_of_le (htaken ▸ hfit)]
    exact ⟨fun _ => hfit, fun _ => some_ne_none _⟩
  · rw [within_of_not_le (htaken ▸ hfit)]
    exact ⟨fun hc => absurd rfl hc, fun hc => absurd hc hfit⟩

end

/-! ## `exec_load` -/

section

variable {M : Memory} {junk : Junk} {st : State} {f : File} {cached : Bool}

theorem loadable_of_ne_none (huser : UserCopies junk f) (h : ¬ Rejected f)
    (hret : execLoadAt M junk (procShared st) (f.vnode cached) ≠ none) : Loadable M junk st f := by
  rw [execLoadAt_of_not_rejected h] at hret
  split_ifs at hret with htable
  · obtain ⟨r, hr⟩ := ne_none_iff_exists'.mp hret
    obtain ⟨st2, hr, -⟩ := map_eq_some_iff.mp hr
    obtain ⟨st1, hrun, hthread⟩ := bind_eq_some_iff.mp hr
    obtain ⟨hst1, hall⟩ := fits_of_rounds (fun i => rfl) huser hrun
    refine ⟨htable, fun i hi hload => (hall i hi hload).1, fun i hi hload => (hall i hi hload).2.2,
      fun i hi hload => (hall i hi hload).2.1, ?_⟩
    have hframes := (hst1.threadNew_ne_none junk).mp (ne_none_iff_exists'.mpr ⟨st2, hthread⟩)
    rwa [hst1.taken] at hframes
  · exact absurd rfl hret

theorem ne_none_of_loadable (h : ¬ Rejected f) (hload : Loadable M junk st f) :
    execLoadAt M junk (procShared st) (f.vnode cached) ≠ none := by
  rw [execLoadAt_of_not_rejected h, if_pos hload.table_le]
  have hframes := hload.frames
  obtain ⟨st1, hrun, hst1⟩ := @rounds_of_fits M st (seen junk f) _ _ junk (f.vnode cached) (fun i => rfl)
    hload.filesz_le hload.blocks hload.covered (by omega)
  rw [hrun, Option.bind_some]
  have hthread : threadNew M junk st1 ≠ none := by
    rw [hst1.threadNew_ne_none, hst1.taken]
    exact hframes
  obtain ⟨st2, hst2⟩ := ne_none_iff_exists'.mp hthread
  rw [hst2]
  exact some_ne_none _

end

theorem sampleFile_loadable : Loadable sampleMemory sampleJunk sampleState sampleFile where
  table_le := by decide +kernel
  filesz_le := by decide +kernel
  covered := by decide +kernel
  blocks := by decide +kernel
  frames := by decide +kernel

/-- The sample with one header, for a segment of 0x3004 bytes in the file. -/
def oversizedFile : File :=
  ⟨182, fun k => if k = 56 then 1 else if k = 97 then 0x30 else sampleFile.bytes k⟩

end LykOS.Exec
