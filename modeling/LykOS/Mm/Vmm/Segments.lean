import LykOS.Lib.Run
import LykOS.Mm.Vmm.Model
import Mathlib.Data.Option.Basic

/-!
# Where segments go

`findSpace_clear`: where the walk of `vmm_find_space` over a sorted list is `Clear`, the space that it
returns is free. An address space made by `vmm_new_addr_space` keeps its segments in order as long as
each `vmm_mmap` either asks for a range that does not wrap around or finds a gap
(`mmap_run_in_order`). The kernel's address space holds nested segments, and there the space returned
by `vmm_mmap` is free where the walk over them is clear (`kernel_mmap_free`).
-/

namespace LykOS.Vmm

open Interval Run
open Option hiding guard

/-! ## The arithmetic of the checks -/

variable {as as' : AddrSpace} {base len : ℕ} {a : MmapArgs}

theorem lastByte_eq (hpos : 0 < base + len) (hle : base + len ≤ 2 ^ 64) :
    lastByte base len = base + len - 1 := by
  unfold lastByte u64
  rw [show base + len + (2 ^ 64 - 1) = base + len - 1 + 2 ^ 64 by omega, Nat.add_mod_right]
  exact Nat.mod_eq_of_lt (by omega)

theorem scanSpace_eq {top : ℕ} (hlen : 0 < len) (htop : top ≤ 2 ^ 64) :
    ∀ {l : List Seg} {reach start : ℕ}, start ≤ reach → (∀ s ∈ l, s.base ≤ top) →
      Clear Seg.base Seg.len len top reach start l →
        scanSpace len start l = firstFit Seg.base Seg.len len start l := by
  intro l
  induction l with
  | nil => intros; rfl
  | cons s l ih =>
    intro reach start hsr hb h
    have hfits := h.fits hb
    have hreach := h.reach_le
    have hb' : ∀ t ∈ l, t.base ≤ top := fun t ht => hb t (List.mem_cons_of_mem _ ht)
    unfold scanSpace
    unfold firstFit at hfits hreach ⊢
    rcases h with ⟨hlt, -⟩ | ⟨hge, h⟩
    · have hs := hb s List.mem_cons_self
      rw [if_pos hlt, u64_of_lt (by omega), if_pos hlt]
    · rw [if_neg (Nat.not_lt.mpr hge)] at hfits hreach ⊢
      have hstop := (Nat.le_max_right _ _).trans h.reach_le
      by_cases hwrap : start + len < 2 ^ 64
      · rw [u64_of_lt hwrap, if_neg (Nat.not_lt.mpr hge), u64_of_lt (by omega)]
        exact ih (Nat.le_max_right _ _) hb' h
      · -- the request ends at 2^64, and the walk ends where it is
        have hff : firstFit Seg.base Seg.len len (s.base + s.len) l = start := by omega
        split_ifs with hc
        · exact hff.symm
        · rw [u64_of_lt (by omega)]
          exact ih (Nat.le_max_right _ _) hb' h

theorem findSpace_clear (hlen : 0 < len) (hhi : as.limitHigh < 2 ^ 64)
    (hs : as.segments.Pairwise fun s t => s.base ≤ t.base)
    (hb : ∀ s ∈ as.segments, s.base ≤ as.limitHigh + 1)
    (h : Clear Seg.base Seg.len len (as.limitHigh + 1) as.limitLow as.limitLow as.segments) :
    as.limitLow ≤ vmmFindSpace as len ∧ vmmFindSpace as len + len ≤ as.limitHigh + 1 ∧
      ∀ s ∈ as.segments, s.base + s.len ≤ vmmFindSpace as len ∨
        vmmFindSpace as len + len ≤ s.base := by
  have hscan := scanSpace_eq hlen (by omega) le_rfl hb h
  have hfits := h.fits hb
  have heq : vmmFindSpace as len = firstFit Seg.base Seg.len len as.limitLow as.segments := by
    unfold vmmFindSpace
    split_ifs with hnil
    · rw [List.isEmpty_iff.mp hnil]
      rfl
    · simp only [hscan]
      rw [lastByte_eq (by omega) (by omega), if_pos (by omega)]
  rw [heq]
  exact ⟨h.reach_le, hfits, fun s hmem => (h.apart hs s hmem).imp_right Nat.le_of_lt⟩

theorem apart_of_checkCollision (hpos : 0 < len) (hle : base + len ≤ 2 ^ 64)
    (h : vmmCheckCollision as base len = false) {s : Seg} (hs : s ∈ as.segments) (hspos : 0 < s.len)
    (hsle : s.base + s.len ≤ 2 ^ 64) : Apart s.base s.len base len := by
  unfold vmmCheckCollision at h
  have hno := List.any_eq_false.mp h s hs
  rw [decide_eq_true_eq, lastByte_eq (by omega) hle, lastByte_eq (by omega) hsle] at hno
  apply apart_of_le
  omega

theorem checkCollision_of_apart (hpos : 0 < len) (hle : base + len ≤ 2 ^ 64)
    (hsegs : ∀ s ∈ as.segments, 0 < s.len ∧ s.base + s.len ≤ 2 ^ 64 ∧ Apart s.base s.len base len) :
    vmmCheckCollision as base len = false := by
  refine List.any_eq_false.mpr fun s hs => ?_
  obtain ⟨hspos, hsle, hapart⟩ := hsegs s hs
  have hsides := le_of_apart hapart hspos hpos
  rw [decide_eq_true_eq, lastByte_eq (by omega) hle, lastByte_eq (by omega) hsle]
  omega

theorem scanSpace_cases {P : ℕ → Prop} {l : List Seg} : ∀ {start : ℕ}, P start →
    (∀ s ∈ l, P (u64 (s.base + s.len))) → P (scanSpace len start l) := by
  induction l with
  | nil => exact fun h _ => h
  | cons s l ih =>
    intro start h hl
    rw [scanSpace]
    split_ifs
    · exact h
    · exact ih (hl s List.mem_cons_self) fun t ht => hl t (List.mem_cons_of_mem _ ht)

theorem scanSpace_aligned {l : List Seg} {start : ℕ} (hstart : start % archPageGran = 0)
    (hl : ∀ s ∈ l, (s.base + s.len) % archPageGran = 0) :
    scanSpace len start l % archPageGran = 0 := by
  refine scanSpace_cases (P := fun x => x % archPageGran = 0) hstart fun s hs => ?_
  have hend := hl s hs
  unfold u64 archPageGran at *
  omega

theorem vmmFindSpace_aligned (hlow : as.limitLow % archPageGran = 0)
    (hl : ∀ s ∈ as.segments, (s.base + s.len) % archPageGran = 0) :
    vmmFindSpace as len % archPageGran = 0 := by
  unfold vmmFindSpace
  simp only
  split_ifs
  · exact hlow
  · exact scanSpace_aligned hlow hl
  · rfl

/-! ## Address spaces of processes -/

/-- The segments are sorted, disjoint and inside the limits. -/
structure InOrder (lo hi : ℕ) (as : AddrSpace) : Prop where
  limits : as.limitLow = lo ∧ as.limitHigh = hi
  sorted : as.segments.Pairwise fun s t => s.base ≤ t.base
  disjoint : as.segments.Pairwise fun s t => Apart s.base s.len t.base t.len
  inside : ∀ s ∈ as.segments, lo ≤ s.base ∧ s.base + s.len ≤ hi + 1

/-- A call of `vmm_mmap` with 64-bit arguments and a length that is not zero. -/
def mmapStep (as : AddrSpace) (a : MmapArgs) : Option AddrSpace := do
  guard (a.virt < 2 ^ 64 ∧ 0 < a.len ∧ a.len < 2 ^ 64)
  let (_, as) ← mmapPlace as a
  return as

/-- What the checks of `vmm_mmap` leave open: a range that they accept does not wrap around, and where
they refuse it there is a gap, unless the request is `VMM_MAP_FIXED`. -/
def Fits (as : AddrSpace) (a : MmapArgs) : Prop :=
  (mmapRefused as a = true → hasFlag a.flags vmmMapFixed ∨
    HasGap Seg.base Seg.len a.len (as.limitHigh + 1) as.limitLow as.segments) ∧
  (mmapRefused as a = false → a.virt + a.len ≤ as.limitHigh + 1)

instance (as : AddrSpace) (a : MmapArgs) : Decidable (Fits as a) :=
  inferInstanceAs (Decidable (_ ∧ _))

/-- The invariant behind `InOrder`. -/
def TidySpace (lo hi : ℕ) (as : AddrSpace) : Prop :=
  as.limitLow = lo ∧ as.limitHigh = hi ∧ Tidy Seg.base Seg.len (hi + 1) lo as.segments

theorem TidySpace.inOrder {lo hi : ℕ} (h : TidySpace lo hi as) : InOrder lo hi as := by
  obtain ⟨h1, h2, h3⟩ := h
  refine ⟨⟨h1, h2⟩, h3.sorted, h3.pairwise.imp fun h => apart_of_le (Or.inl h), ?_⟩
  intro s hs
  obtain ⟨h4, -, h5⟩ := h3.bounds s hs
  exact ⟨h4, h5⟩

theorem mmapPlace_eq {r : Option ℕ × AddrSpace} (h : mmapPlace as a = some r) :
    (mmapRefused as a ∧ hasFlag a.flags vmmMapFixed ∧ r = (none, as)) ∨
      ∃ virt, virt = (if mmapRefused as a then vmmFindSpace as a.len else a.virt) ∧
        (mmapRefused as a → ¬ hasFlag a.flags vmmMapFixed) ∧
        r = (some virt, vmmInsertSeg as (mmapSegment a virt)) := by
  unfold mmapPlace at h
  simp only [bind_eq_bind, bind_eq_some_iff, pure_def] at h
  obtain ⟨_, -, h⟩ := h
  by_cases hc : (mmapRefused as a && hasFlag a.flags vmmMapFixed) = true
  · rw [if_pos hc] at h
    obtain ⟨h1, h2⟩ := Bool.and_eq_true_iff.mp hc
    exact Or.inl ⟨h1, h2, (Option.some.inj h).symm⟩
  · rw [if_neg hc] at h
    refine Or.inr ⟨_, rfl, fun h1 h2 => hc ?_, (Option.some.inj h).symm⟩
    rw [h1, h2]
    rfl

theorem mmapPlace_of_accepted (hok : mmapAsserts a = true) (href : mmapRefused as a = false) :
    mmapPlace as a = some (some a.virt, vmmInsertSeg as (mmapSegment a a.virt)) := by
  have hguard : (guard (mmapAsserts a = true) : Option Unit) = some () := if_pos hok
  simp only [mmapPlace, hguard, href, bind_eq_bind, Option.bind_some, Bool.false_and,
    Bool.false_eq_true, if_false, pure_def]

theorem mmapPlace_of_not_fixed (as : AddrSpace) (hok : mmapAsserts a = true)
    (hfixed : hasFlag a.flags vmmMapFixed = false) :
    mmapPlace as a =
      let virt := if mmapRefused as a then vmmFindSpace as a.len else a.virt
      some (some virt, vmmInsertSeg as (mmapSegment a virt)) := by
  have hguard : (guard (mmapAsserts a = true) : Option Unit) = some () := if_pos hok
  simp only [mmapPlace, hguard, hfixed, bind_eq_bind, Option.bind_some, Bool.and_false,
    Bool.false_eq_true, if_false, pure_def]

theorem mmapStep_tidy {lo hi : ℕ} (hhi : hi < 2 ^ 64) (h : TidySpace lo hi as) (hfit : Fits as a)
    (hstep : mmapStep as a = some as') : TidySpace lo hi as' := by
  unfold mmapStep at hstep
  simp only [bind_eq_bind, bind_eq_some_iff, pure_def] at hstep
  obtain ⟨_, hg, r, hr, hw⟩ := hstep
  cases hw
  obtain ⟨hvirt, hpos, hlen⟩ := (guard_eq_some' _).mp hg
  obtain ⟨h1, h2, h3⟩ := h
  rcases mmapPlace_eq hr with ⟨-, -, rfl⟩ | ⟨virt, hv, hfixed, rfl⟩
  · exact ⟨h1, h2, h3⟩
  refine ⟨h1, h2, ?_⟩
  by_cases href : mmapRefused as a = true
  · have hgap := (hfit.1 href).resolve_left (hfixed href)
    rw [h1, h2] at hgap
    rw [if_pos href] at hv
    have hclear := h3.clear hgap
    have hbase : ∀ s ∈ as.segments, s.base ≤ as.limitHigh + 1 := by
      intro s hs
      have := h3.bounds s hs
      omega
    rw [← h1, ← h2] at hclear
    obtain ⟨h4, h5, h6⟩ := findSpace_clear hpos (h2 ▸ hhi) h3.sorted hbase hclear
    rw [h1, ← hv] at h4
    rw [h2, ← hv] at h5
    refine h3.insert h4 hpos h5 fun s hs => apart_of_le ?_
    have := h6 s hs
    rwa [← hv] at this
  · have hend := hfit.2 (eq_false_of_ne_true href)
    rw [h2] at hend
    rw [if_neg href] at hv
    subst hv
    unfold mmapRefused vmmIsInBounds at href
    simp only [Bool.or_eq_true, not_or, Bool.not_eq_true, Bool.not_eq_false', decide_eq_true_eq]
      at href
    obtain ⟨hcol, hbounds⟩ := href
    rw [h1, h2] at hbounds
    refine h3.insert (by show lo ≤ a.virt; omega) hpos hend fun s hs => ?_
    obtain ⟨h4, h5, h6⟩ := h3.bounds s hs
    exact apart_of_checkCollision hpos (by omega) hcol hs h5 (by omega)

/-- Every run of `vmm_mmap` calls that fit keeps the segments in order. -/
theorem mmap_run_in_order (lo : ℕ) {hi : ℕ} (hhi : hi < 2 ^ 64) {calls : List MmapArgs}
    {as : AddrSpace} (hrun : run mmapStep (vmmNewAddrSpace lo hi) calls = some as)
    (hfit : Meets mmapStep Fits (vmmNewAddrSpace lo hi) calls) : InOrder lo hi as := by
  have h₀ : TidySpace lo hi (vmmNewAddrSpace lo hi) := ⟨rfl, rfl, trivial⟩
  have h : TidySpace lo hi as := run_induction_of_meets
    (fun s a s' hs hf hstep => mmapStep_tidy hhi hs hf hstep) h₀ hfit hrun
  exact h.inOrder

def anonymous (virt len flags : ℕ) : MmapArgs :=
  ⟨virt, len, vmmProtFull, vmmMapPrivate ||| vmmMapAnon ||| flags, none, 0⟩

theorem mmap_run_in_order_sample :
    ∃ as, run mmapStep (vmmNewAddrSpace 0 archUserMaxVirt)
        [anonymous 0x400000 0x3000 vmmMapFixed, anonymous 0x401000 0x2000 0] = some as ∧
      InOrder 0 archUserMaxVirt as := by
  have hrun : run mmapStep (vmmNewAddrSpace 0 archUserMaxVirt)
      [anonymous 0x400000 0x3000 vmmMapFixed, anonymous 0x401000 0x2000 0] =
        some ⟨[mmapSegment (anonymous 0x401000 0x2000 0) 0,
          mmapSegment (anonymous 0x400000 0x3000 vmmMapFixed) 0x400000], 0, archUserMaxVirt⟩ := by
    decide +kernel
  refine ⟨_, hrun, mmap_run_in_order 0 (by decide) hrun ⟨by decide, fun as has => ?_⟩⟩
  cases has
  exact ⟨by decide, fun _ _ => trivial⟩

/-- A range that begins in the last page and ends in the first one is accepted as it is. -/
theorem mmap_wraps_around :
    ∃ as, run mmapStep (vmmNewAddrSpace 0 archUserMaxVirt)
        [anonymous (2 ^ 64 - 0x1000) 0x2000 0] = some as ∧ ¬ InOrder 0 archUserMaxVirt as := by
  refine ⟨_, rfl, fun h => ?_⟩
  have hin := (h.inside _ (List.mem_singleton.mpr rfl)).2
  exact absurd hin (by decide)

/-! ## The address space of the kernel -/

def Covers (base len addr : ℕ) : Prop := ∃ k < len, addr = u64 (base + k)

/-- A call of `vmm_mmap` on the kernel's address space as `module_load` makes it. -/
def kernelStep (as : AddrSpace) (a : MmapArgs) : Option AddrSpace := do
  guard (a.virt = 0 ∧ ¬ hasFlag a.flags vmmMapFixed ∧ a.len < 2 ^ 64)
  let (_, as) ← mmapPlace as a
  return as

/-- Sorted by base, bases in 64 bits, the limits of the kernel. -/
structure KernelSpace (as : AddrSpace) : Prop where
  low : as.limitLow = archKernelMinVirt
  high : as.limitHigh = archKernelMaxVirt
  sorted : as.segments.Pairwise fun s t => s.base ≤ t.base
  word : ∀ s ∈ as.segments, s.base < 2 ^ 64

theorem KernelSpace.insert (h : KernelSpace as) {seg : Seg} (hs : seg.base < 2 ^ 64) :
    KernelSpace (vmmInsertSeg as seg) := by
  refine ⟨h.low, h.high, sorted_insertByBase Seg.base h.sorted, fun s hmem => ?_⟩
  rcases (mem_insertByBase Seg.base).mp hmem with rfl | hmem
  · exact hs
  · exact h.word s hmem

theorem KernelSpace.mapKernelSeg (h : KernelSpace as) {virt prot : ℕ} (hv : virt < 2 ^ 64)
    (heq : Vmm.mapKernelSeg as virt len prot = some as') : KernelSpace as' := by
  unfold Vmm.mapKernelSeg at heq
  simp only [bind_eq_bind, bind_eq_some_iff, pure_def] at heq
  obtain ⟨_, -, hw⟩ := heq
  cases hw
  exact h.insert hv

theorem vmmInitSegs_kernelSpace {hhdm virtualBase : ℕ} (hh : hhdm < 2 ^ 64)
    (hv : virtualBase < 2 ^ 64) {map : List MemmapEntry}
    (h : vmmInitSegs hhdm virtualBase map = some as) : KernelSpace as := by
  unfold vmmInitSegs at h
  simp only [bind_eq_bind, bind_eq_some_iff] at h
  obtain ⟨as₁, h₁, as₂, h₂, h⟩ := h
  have h₀ : KernelSpace (vmmNewAddrSpace archKernelMinVirt archKernelMaxVirt) :=
    ⟨rfl, rfl, List.Pairwise.nil, fun s hs => absurd hs List.not_mem_nil⟩
  have hk := (h₀.mapKernelSeg hh h₁).mapKernelSeg hv h₂
  refine run_induction (fun as e as' has hstep => ?_) hk h
  unfold mapEntry at hstep
  split_ifs at hstep
  · cases hstep
    exact has
  · exact has.mapKernelSeg (u64_lt _) hstep

theorem scanSpace_lt : ∀ {l : List Seg} {start : ℕ}, start < 2 ^ 64 →
    scanSpace len start l < 2 ^ 64 := by
  intro l
  induction l with
  | nil => exact id
  | cons s l ih =>
    intro start h
    unfold scanSpace
    split_ifs
    · exact h
    · exact ih (u64_lt _)

theorem vmmFindSpace_lt (hlo : as.limitLow < 2 ^ 64) (len : ℕ) : vmmFindSpace as len < 2 ^ 64 := by
  unfold vmmFindSpace
  simp only
  split_ifs
  · exact hlo
  · exact scanSpace_lt hlo
  · decide

theorem KernelSpace.mmapPlace (h : KernelSpace as) (hv : a.virt = 0)
    (hf : ¬ hasFlag a.flags vmmMapFixed) (hok : mmapAsserts a) :
    Vmm.mmapPlace as a = some (some (vmmFindSpace as a.len),
      vmmInsertSeg as (mmapSegment a (vmmFindSpace as a.len))) := by
  have hout : vmmIsInBounds as a.virt a.len = false := by
    unfold vmmIsInBounds
    rw [hv, h.low, decide_eq_false_iff_not, not_not]
    exact Or.inl (by decide)
  have href : mmapRefused as a = true := by
    unfold mmapRefused
    rw [hout, Bool.not_false, Bool.or_true]
  have hg : (guard (mmapAsserts a = true) : Option Unit) = some () := if_pos hok
  unfold Vmm.mmapPlace
  simp only [hg, href, eq_false_of_ne_true hf, bind_eq_bind, Option.bind_some,
    Bool.and_false, Bool.false_eq_true, if_false, if_true, pure_def]

theorem kernelStep_kernelSpace (h : KernelSpace as) (hstep : kernelStep as a = some as') :
    KernelSpace as' := by
  unfold kernelStep at hstep
  simp only [bind_eq_bind, bind_eq_some_iff, pure_def] at hstep
  obtain ⟨_, hg, r, hr, hw⟩ := hstep
  cases hw
  obtain ⟨hv, hf, -⟩ := (guard_eq_some' _).mp hg
  rcases mmapPlace_eq hr with ⟨-, hfix, -⟩ | ⟨virt, hvirt, -, rfl⟩
  · exact absurd hfix hf
  · refine h.insert ?_
    show virt < 2 ^ 64
    rw [hvirt]
    split_ifs
    · exact vmmFindSpace_lt (by rw [h.low]; decide) _
    · rw [hv]
      decide

/-- The walk of `vmm_find_space` over the kernel's segments meets a gap before which no segment
reaches past the one that ends there, and no segment wraps around up to the kernel half. -/
def KernelClear (as : AddrSpace) (len : ℕ) : Prop :=
  Clear Seg.base Seg.len len (as.limitHigh + 1) as.limitLow as.limitLow as.segments ∧
    ∀ s ∈ as.segments, s.base + s.len ≤ 2 ^ 64 + as.limitLow

instance (as : AddrSpace) (len : ℕ) : Decidable (KernelClear as len) :=
  inferInstanceAs (Decidable (_ ∧ _))

theorem KernelSpace.findSpace_free (h : KernelSpace as) (hlen : 0 < len) (hclear : KernelClear as len)
    {s : Seg} (hs : s ∈ as.segments) (addr : ℕ) :
    ¬ (Covers s.base s.len addr ∧ Covers (vmmFindSpace as len) len addr) := by
  have hhi : as.limitHigh < 2 ^ 64 := by rw [h.high]; decide
  have hb : ∀ s ∈ as.segments, s.base ≤ as.limitHigh + 1 := by
    intro s hs
    have := h.word s hs
    rw [h.high]
    unfold archKernelMaxVirt
    omega
  obtain ⟨h1, h2, h3⟩ := findSpace_clear hlen hhi h.sorted hb hclear.1
  have h4 := h3 s hs
  have h5 := hclear.2 s hs
  have h6 := h.word s hs
  rintro ⟨⟨k, hk, rfl⟩, j, hj, he⟩
  rw [u64_of_lt (by omega : vmmFindSpace as len + j < 2 ^ 64)] at he
  unfold u64 at he
  omega

/-- Whatever `vmm_init` and earlier calls recorded, the next call of `vmm_mmap` on the kernel's
address space returns a free range where the walk is clear. -/
theorem kernel_mmap_free {hhdm virtualBase : ℕ} (hh : hhdm < 2 ^ 64) (hv : virtualBase < 2 ^ 64)
    {map : List MemmapEntry} {as₀ as : AddrSpace} {earlier : List MmapArgs}
    (hinit : vmmInitSegs hhdm virtualBase map = some as₀)
    (hrun : run kernelStep as₀ earlier = some as) {a : MmapArgs} (hvirt : a.virt = 0)
    (hfixed : ¬ hasFlag a.flags vmmMapFixed) (hok : mmapAsserts a)
    (hclear : KernelClear as a.len) :
    ∃ virt as', mmapPlace as a = some (some virt, as') ∧
      ∀ s ∈ as.segments, ∀ addr, ¬ (Covers s.base s.len addr ∧ Covers virt a.len addr) := by
  have h : KernelSpace as := run_induction (fun s o s' hs hstep => kernelStep_kernelSpace hs hstep)
    (vmmInitSegs_kernelSpace hh hv hinit) hrun
  refine ⟨_, _, h.mmapPlace hvirt hfixed hok, fun s hs addr => ?_⟩
  rcases Nat.eq_zero_or_pos a.len with h0 | hpos
  · rintro ⟨-, k, hk, -⟩
    omega
  · exact h.findSpace_free hpos hclear hs addr

def sampleVirtualBase : ℕ := 0xFFFFFFFF80000000

/-- Memory above 4 GiB only: its mapping lies after the HHDM window. -/
theorem kernel_mmap_free_high_memory :
    ∃ as virt as', vmmInitSegs archKernelMinVirt sampleVirtualBase
        [⟨4 * gib, gib, .usable⟩] = some as ∧
      mmapPlace as (anonymous 0 0x1000 vmmMapPopulate) = some (some virt, as') ∧
      ∀ s ∈ as.segments, ∀ addr, ¬ (Covers s.base s.len addr ∧ Covers virt 0x1000 addr) := by
  obtain ⟨as, hinit, hclear⟩ : ∃ as ∈ vmmInitSegs archKernelMinVirt sampleVirtualBase
      [⟨4 * gib, gib, .usable⟩], KernelClear as 0x1000 := by decide +kernel
  obtain ⟨virt, as', h, hfree⟩ := kernel_mmap_free (a := anonymous 0 0x1000 vmmMapPopulate)
    (by decide) (by decide) hinit (run_nil _) rfl (by decide) (by decide) hclear
  exact ⟨as, virt, as', hinit, h, hfree⟩

/-- With one entry of memory below 4 GiB, the range returned starts at its end, in the HHDM window. -/
theorem kernel_mmap_overlaps :
    ∃ as virt s addr, vmmInitSegs archKernelMinVirt sampleVirtualBase
        [⟨0x100000, 0x7EE0000, .usable⟩] = some as ∧
      (mmapPlace as (anonymous 0 0x1000 vmmMapPopulate)).map Prod.fst = some (some virt) ∧
      s ∈ as.segments ∧ Covers s.base s.len addr ∧ Covers virt 0x1000 addr := by
  obtain ⟨as, hinit, hplace, s, hs, hbase, hlen⟩ : ∃ as ∈ vmmInitSegs archKernelMinVirt sampleVirtualBase
      [⟨0x100000, 0x7EE0000, .usable⟩],
      (mmapPlace as (anonymous 0 0x1000 vmmMapPopulate)).map Prod.fst =
        some (some (archKernelMinVirt + 0x7FE0000)) ∧
      ∃ s ∈ as.segments, s.base = archKernelMinVirt ∧ s.len = 4 * gib := by decide +kernel
  refine ⟨as, _, s, archKernelMinVirt + 0x7FE0000, hinit, hplace, hs, ?_, ?_⟩
  · exact ⟨0x7FE0000, by rw [hlen]; decide, by rw [hbase]; decide⟩
  · exact ⟨0, by decide, by decide⟩

end LykOS.Vmm
