import LykOS.Common.Limine
import LykOS.Lib.Pool

/-!
# The physical memory manager

`mm/pmm.c`: a buddy allocator over the `blocks` array, one record for each page, with one list of
free blocks for each order. A list element is named by the index of its record, and `levels` is an
array of `Pool` lists. An operation has no result where the C code panics, leaves the `blocks` array
or misuses an intrusive list.
-/

namespace LykOS.Pmm

def pmmMaxOrder : ℕ := 10

/-- `sizeof(pmm_block_t)`: an address, an order and a flag padded to a word, two links. -/
def sizeofPmmBlock : ℕ := 32

/-- `pmm_block_t`, without its links. -/
structure PmmBlock where
  addr : ℕ
  order : ℕ
  free : Bool
  deriving DecidableEq, Repr

/-- The static data of `pmm.c`. -/
structure PmmState where
  blocks : ℕ → PmmBlock
  blockCount : ℕ
  levels : ℕ → List ℕ

/-- `pmm_pagecount_to_order`; the difference `64 - __builtin_clzll(n)` is the number of digits of `n`. -/
def pmmPagecountToOrder (pages : ℕ) : ℕ :=
  if pages = 1 then 0 else Nat.log2 (u64 (pages + (2 ^ 64 - 1))) + 1

def pmmOrderToPagecount (order : ℕ) : ℕ := 1 <<< order

/-! ## Accesses -/

/-- `blocks[idx]`. -/
def PmmState.block (s : PmmState) (idx : ℕ) : Option PmmBlock :=
  if idx < s.blockCount then some (s.blocks idx) else none

/-- Sets the order and the flag of `blocks[idx]`. -/
def PmmState.setBlock (s : PmmState) (idx order : ℕ) (free : Bool) : Option PmmState :=
  if idx < s.blockCount then
    some { s with blocks := Function.update s.blocks idx ⟨(s.blocks idx).addr, order, free⟩ }
  else none

/-- `list_remove(&levels[order], &blocks[idx].list_elem)`. -/
def PmmState.listRemove (s : PmmState) (order idx : ℕ) : Option PmmState :=
  (Pool.remove (pmmMaxOrder + 1) s.levels order idx).map fun l => { s with levels := l }

/-- `list_append(&levels[order], &blocks[idx].list_elem)`. -/
def PmmState.listAppend (s : PmmState) (order idx : ℕ) : Option PmmState :=
  (Pool.append (pmmMaxOrder + 1) s.levels order idx).map fun l => { s with levels := l }

/-- The three statements by which a block becomes free: its order, its flag, its list. -/
def PmmState.putFree (s : PmmState) (idx order : ℕ) : Option PmmState := do
  let s ← s.setBlock idx order true
  s.listAppend order idx

/-! ## Allocation -/

/-- The search for a non-empty list; `n` lists are left. With none left the kernel panics. -/
def findLevel (levels : ℕ → List ℕ) : ℕ → ℕ → Option ℕ
  | 0, _ => none
  | n + 1, i => if levels i = [] then findLevel levels n (i + 1) else some i

/-- The splitting loop of `pmm_alloc`, with `i` counting down to `order`. -/
def splitBlock (order block : ℕ) : ℕ → PmmState → Option PmmState
  | 0, s => some s
  | i + 1, s =>
    if order < i + 1 then do
      let b ← s.block block
      let rIdx := (b.addr / archPageGran) ^^^ pmmOrderToPagecount i
      let s ← s.putFree rIdx i
      splitBlock order block i s
    else some s

def pmmAlloc (s : PmmState) (order : ℕ) : Option (ℕ × PmmState) := do
  guard (order ≤ pmmMaxOrder)
  let i ← findLevel s.levels (pmmMaxOrder + 1 - order) order
  let block ← (s.levels i).head?
  let s ← s.listRemove i block
  let s ← splitBlock order block i s
  let s ← s.setBlock block order false
  let b ← s.block block
  return (b.addr, s)

/-! ## Freeing -/

/-- The merging loop of `pmm_free`, with `n = PMM_MAX_ORDER - i` rounds left. The pointer `block` of
the source is always `&blocks[idx]`. -/
def mergeBlock : ℕ → PmmState → ℕ → ℕ → Option (PmmState × ℕ × ℕ)
  | 0, s, idx, i => some (s, idx, i)
  | n + 1, s, idx, i =>
    let bIdx := idx ^^^ pmmOrderToPagecount i
    if s.blockCount ≤ bIdx then some (s, idx, i)
    else do
      let buddy ← s.block bIdx
      if buddy.free = true ∧ buddy.order = i then do
        let s ← s.listRemove buddy.order bIdx
        mergeBlock n s (if idx < bIdx then idx else bIdx) (i + 1)
      else some (s, idx, i)

def pmmFree (hhdm : ℕ) (s : PmmState) (addr : ℕ) : Option PmmState := do
  guard (addr < hhdm)
  let idx := addr / archPageGran
  let b ← s.block idx
  guard (b.free = false)
  let (s, idx, i) ← mergeBlock (pmmMaxOrder - b.order) s idx b.order
  s.putFree idx i

/-! ## Initialisation -/

def lastUsableEntry (map : List MemmapEntry) : Option MemmapEntry :=
  map.foldl (fun last e => if e.type = .usable then some e else last) none

def blockCountOf (e : MemmapEntry) : ℕ := u64 (e.base + e.length) / archPageGran

/-- The first usable entry that can hold the `blocks` array. -/
def arrayEntry (map : List MemmapEntry) (blockCount : ℕ) : Option MemmapEntry :=
  map.find? fun e => e.type = .usable ∧ blockCount * sizeofPmmBlock ≤ e.length

/-- The bytes of the `blocks` array, rounded up to whole pages. -/
def arraySize (blockCount : ℕ) : ℕ :=
  (blockCount * sizeofPmmBlock + (archPageGran - 1)) / archPageGran * archPageGran

/-- The greedy loop of `pmm_init` over one entry, for `fuel` rounds at most. Decrementing order 0
wraps the `u8`, and the next shift is undefined. -/
def fillEntry (stop : ℕ) : ℕ → ℕ → ℕ → PmmState → Option PmmState
  | 0, _, _, _ => none
  | fuel + 1, addr, order, s =>
    if addr = stop then some s
    else
      let span := pmmOrderToPagecount order * archPageGran
      if u64 (addr + span) > stop ∨ addr % span ≠ 0 then
        if order = 0 then none else fillEntry stop fuel addr (order - 1) s
      else do
        let s ← s.putFree (addr / archPageGran) order
        fillEntry stop fuel (u64 (addr + span)) pmmMaxOrder s

/-- One round of the loop over the entries; `blocks` is the address of the array. -/
def initEntry (hhdm blocks : ℕ) (s : PmmState) (e : MemmapEntry) : Option PmmState :=
  if e.type ≠ .usable then some s
  else
    let addr := if e.base = u64 (blocks + 2 ^ 64 - hhdm) then u64 (e.base + arraySize s.blockCount)
      else e.base
    fillEntry (u64 (e.base + e.length)) (e.length / archPageGran * (pmmMaxOrder + 1) + 1) addr
      pmmMaxOrder s

def pmmInit (hhdm : ℕ) (map : List MemmapEntry) : Option PmmState := do
  let last ← lastUsableEntry map
  let blockCount := blockCountOf last
  let e ← arrayEntry map blockCount
  let blocks := u64 (e.base + hhdm)
  guard (blocks ≠ 0)
  let s : PmmState :=
    { blocks := fun i => ⟨archPageGran * i, 0, false⟩, blockCount, levels := fun _ => [] }
  map.foldlM (initEntry hhdm blocks) s

end LykOS.Pmm
