import LykOS.Common.Limine
import LykOS.Lib.Interval

/-!
# Address spaces and their segments

The part of `mm/vmm.c` that places segments: the search for space, the checks of `vmm_mmap`, and the
segments that `vmm_init` records for the kernel. Addresses and lengths are 64-bit words, so sums are
taken under `u64`. A failed `ASSERT` has no result. What the functions do to page tables and memory
is in `LykOS.Mm.Vmm.Paging`.
-/

namespace LykOS.Vmm

def vmmProtFull : ℕ := 0x7
def vmmMapPrivate : ℕ := 0x01
def vmmMapShared : ℕ := 0x02
def vmmMapAnon : ℕ := 0x04
def vmmMapFixed : ℕ := 0x08
def vmmMapPopulate : ℕ := 0x20

/-- `(flags & flag) != 0`. -/
def hasFlag (flags flag : ℕ) : Bool := flags &&& flag != 0

/-- `vmm_seg_type_t`. -/
inductive SegType
  | vnode
  | kernel
  deriving DecidableEq, Repr

/-- `vmm_seg_t`, without its links; vnodes are named by numbers. -/
structure Seg where
  type : SegType
  base : ℕ
  len : ℕ
  prot : ℕ
  flags : ℕ
  vnode : Option ℕ
  offset : ℕ
  deriving DecidableEq, Repr

/-- `vmm_addr_space_t`, without its page tables. -/
structure AddrSpace where
  segments : List Seg
  limitLow : ℕ
  limitHigh : ℕ
  deriving DecidableEq, Repr

def lastByte (base len : ℕ) : ℕ := u64 (base + len + (2 ^ 64 - 1))

/-! ## Segments -/

/-- `vmm_insert_seg`: after the last segment of the sorted list with a smaller base. -/
def vmmInsertSeg (as : AddrSpace) (seg : Seg) : AddrSpace :=
  { as with segments := Interval.insertByBase Seg.base seg as.segments }

/-- The loop of `vmm_find_space`. -/
def scanSpace (len : ℕ) : ℕ → List Seg → ℕ
  | start, [] => start
  | start, seg :: l =>
    if u64 (start + len) < seg.base then start else scanSpace len (u64 (seg.base + seg.len)) l

def vmmFindSpace (as : AddrSpace) (len : ℕ) : ℕ :=
  if as.segments.isEmpty then as.limitLow
  else
    let start := scanSpace len as.limitLow as.segments
    if lastByte start len ≤ as.limitHigh then start else 0

def vmmCheckCollision (as : AddrSpace) (base len : ℕ) : Bool :=
  as.segments.any fun seg => lastByte base len ≥ seg.base ∧ base ≤ lastByte seg.base seg.len

def vmmIsInBounds (as : AddrSpace) (base len : ℕ) : Bool :=
  ¬ (base < as.limitLow ∨ u64 (base + len) > as.limitHigh)

def vmmAddrToSeg (as : AddrSpace) (addr : ℕ) : Option Seg :=
  as.segments.find? fun seg => seg.base ≤ addr ∧ addr < u64 (seg.base + seg.len)

def vmmNewAddrSpace (limitLow limitHigh : ℕ) : AddrSpace := ⟨[], limitLow, limitHigh⟩

/-! ## `vmm_mmap` -/

structure MmapArgs where
  virt : ℕ
  len : ℕ
  prot : ℕ
  flags : ℕ
  vnode : Option ℕ
  offset : ℕ

def mmapAsserts (a : MmapArgs) : Bool :=
  (a.virt % archPageGran = 0 ∧ a.len % archPageGran = 0) &&
    (hasFlag a.flags vmmMapPrivate ^^ hasFlag a.flags vmmMapShared) &&
    (hasFlag a.flags vmmMapAnon ^^ a.vnode.isSome)

/-- The request cannot be placed where it asks to be. -/
def mmapRefused (as : AddrSpace) (a : MmapArgs) : Bool :=
  vmmCheckCollision as a.virt a.len || !vmmIsInBounds as a.virt a.len

def mmapSegment (a : MmapArgs) (virt : ℕ) : Seg :=
  ⟨.vnode, virt, a.len, a.prot, a.flags, a.vnode, a.offset⟩

/-- `vmm_mmap` up to the population of the pages; the address is `none` for `VMM_MAP_FAILED`. -/
def mmapPlace (as : AddrSpace) (a : MmapArgs) : Option (Option ℕ × AddrSpace) := do
  guard (mmapAsserts a)
  if mmapRefused as a && hasFlag a.flags vmmMapFixed then return (none, as)
  else
    let virt := if mmapRefused as a then vmmFindSpace as a.len else a.virt
    return (some virt, vmmInsertSeg as (mmapSegment a virt))

/-! ## The kernel's address space -/

/-- `vmm_map_kernel` up to the page tables. -/
def mapKernelSeg (as : AddrSpace) (virt len prot : ℕ) : Option AddrSpace := do
  guard (virt % archPageGran = 0 ∧ len % archPageGran = 0)
  return vmmInsertSeg as ⟨.kernel, virt, len, prot, 0, none, 0⟩

/-- One round of the loop of `vmm_init` over the memory map. -/
def mapEntry (hhdm : ℕ) (as : AddrSpace) (e : MemmapEntry) : Option AddrSpace :=
  if e.type = .reserved ∨ e.type = .badMemory then some as
  else
    let base := floorTo e.base archPageGran
    let length := u64 (ceilTo (u64 (e.base + e.length)) archPageGran + (2 ^ 64 - base))
    mapKernelSeg as (u64 (base + hhdm)) length vmmProtFull

/-- `vmm_init` up to the page tables: the HHDM window, the kernel window, the memory map. -/
def vmmInitSegs (hhdm virtualBase : ℕ) (map : List MemmapEntry) : Option AddrSpace := do
  let as := vmmNewAddrSpace archKernelMinVirt archKernelMaxVirt
  let as ← mapKernelSeg as hhdm (4 * gib) vmmProtFull
  let as ← mapKernelSeg as virtualBase (2 * gib) vmmProtFull
  map.foldlM (mapEntry hhdm) as

end LykOS.Vmm
