import LykOS.Arch.Types
import LykOS.Lib.Pool

/-!
# The slab allocator

`mm/kmem.c` for one cache. Slabs and magazines are named by their addresses; the fields that the code keeps
in memory are functions of the address: the magazines, the `freelist` of a slab, and the word at the start
of a free object. The pages that `pmm_alloc(0) + HHDM` returns are a parameter, `pages`, and `taken` counts
how many of them the cache has taken. An operation has no result where the C code panics, leaves an array or
misuses an intrusive list.
-/

namespace LykOS.Kmem

def magSize : ℕ := 32

def maxCpus : ℕ := 32

/-- `sizeof(kmem_slab_t)`: two links, the cache pointer, the free list. -/
def sizeofKmemSlab : ℕ := 32

/-- `kmem_magazine_t`, without its links. -/
structure Magazine where
  count : ℕ
  objects : ℕ → ℕ

/-- `kmem_cpu_cache_t`. -/
structure CpuCache where
  loaded : ℕ
  previous : ℕ

/-- `slabs_full`, the index of a list of `KmemCache.slabs`. -/
def slabsFull : ℕ := 0
def slabsPartial : ℕ := 1
/-- `magazines_full`, the index of a list of `KmemCache.magazines`. -/
def magazinesFull : ℕ := 0
def magazinesEmpty : ℕ := 1

/-- `kmem_cache_t` with the memory it manages. -/
structure KmemCache where
  objectSize : ℕ
  slabs : ℕ → List ℕ
  magazines : ℕ → List ℕ
  cpuCache : ℕ → CpuCache
  mag : ℕ → Magazine
  freelist : ℕ → ℕ
  word : ℕ → ℕ
  taken : ℕ

namespace KmemCache

def objectCount (s : KmemCache) : ℕ := (archPageGran - sizeofKmemSlab) / s.objectSize

def object (s : KmemCache) (slab i : ℕ) : ℕ := slab + sizeofKmemSlab + i * s.objectSize

def setFreelist (s : KmemCache) (slab a : ℕ) : KmemCache :=
  { s with freelist := Function.update s.freelist slab a }

def setCpu (s : KmemCache) (cpu loaded previous : ℕ) : KmemCache :=
  { s with cpuCache := Function.update s.cpuCache cpu ⟨loaded, previous⟩ }

def setCount (s : KmemCache) (m n : ℕ) : KmemCache :=
  { s with mag := Function.update s.mag m { s.mag m with count := n } }

def setObject (s : KmemCache) (m i obj : ℕ) : KmemCache :=
  let objects := Function.update (s.mag m).objects i obj
  { s with mag := Function.update s.mag m { s.mag m with objects } }

def slabAppend (s : KmemCache) (i slab : ℕ) : Option KmemCache :=
  (Pool.append 2 s.slabs i slab).map fun l => { s with slabs := l }

def slabRemove (s : KmemCache) (i slab : ℕ) : Option KmemCache :=
  (Pool.remove 2 s.slabs i slab).map fun l => { s with slabs := l }

def magAppend (s : KmemCache) (i m : ℕ) : Option KmemCache :=
  (Pool.append 2 s.magazines i m).map fun l => { s with magazines := l }

def magRemove (s : KmemCache) (i m : ℕ) : Option KmemCache :=
  (Pool.remove 2 s.magazines i m).map fun l => { s with magazines := l }

/-- `mag->objects[--mag->count]`. -/
def magPop (s : KmemCache) (m : ℕ) : Option (ℕ × KmemCache) :=
  let n := (s.mag m).count
  if n = 0 ∨ magSize < n then none else some ((s.mag m).objects (n - 1), s.setCount m (n - 1))

/-- `mag->objects[mag->count++] = obj`. -/
def magPush (s : KmemCache) (m obj : ℕ) : Option KmemCache :=
  let n := (s.mag m).count
  if n < magSize then some ((s.setObject m n obj).setCount m (n + 1)) else none

end KmemCache

section

variable (pages : ℕ → ℕ)

/-! ## Slabs -/

/-- The loop of `cache_make_slab`: `n` objects from object `i` on. -/
def carve (slab : ℕ) : ℕ → ℕ → KmemCache → KmemCache
  | 0, _, s => s
  | n + 1, i, s =>
    let obj := s.object slab i
    let s := { s with word := Function.update s.word obj (s.freelist slab) }
    carve slab n (i + 1) (s.setFreelist slab obj)

def cacheMakeSlab (s : KmemCache) : ℕ × KmemCache :=
  let slab := pages s.taken
  let s := { s with taken := s.taken + 1 }
  (slab, carve slab s.objectCount 0 (s.setFreelist slab 0))

/-- The object at the head of the free list of a partial slab. -/
def takeObject (s : KmemCache) (slab : ℕ) : Option (ℕ × KmemCache) := do
  guard (s.freelist slab ≠ 0)
  let obj := s.freelist slab
  let s := s.setFreelist slab (s.word obj)
  if s.freelist slab = 0 then do
    let s ← s.slabRemove slabsPartial slab
    let s ← s.slabAppend slabsFull slab
    return (obj, s)
  else return (obj, s)

def cacheAllocFromSlabs (s : KmemCache) : Option (ℕ × KmemCache) := do
  let s ← if s.slabs slabsPartial = [] then
      let (slab, s) := cacheMakeSlab pages s
      s.slabAppend slabsPartial slab
    else some s
  let slab ← (s.slabs slabsPartial).head?
  takeObject s slab

/-! ## Magazines -/

/-- The loop of `cache_make_magazine` with `populate` set: `n` objects from place `i` on. -/
def populateMagazine (m : ℕ) : ℕ → ℕ → KmemCache → Option KmemCache
  | 0, _, s => some s
  | n + 1, i, s => do
    let (obj, s) ← cacheAllocFromSlabs pages s
    populateMagazine m n (i + 1) (s.setObject m i obj)

def cacheMakeMagazine (s : KmemCache) (populate : Bool) : Option (ℕ × KmemCache) := do
  let m := pages s.taken
  let s := { s with taken := s.taken + 1 }
  let s ← if populate then populateMagazine pages m magSize 0 s
    else some { s with mag := Function.update s.mag m { s.mag m with objects := fun _ => 0 } }
  return (m, s.setCount m (if populate then magSize else 0))

/-- The loop of `kmem_cache_intialize` over `n` CPUs from `i` on. -/
def initCpus : ℕ → ℕ → KmemCache → Option KmemCache
  | 0, _, s => some s
  | n + 1, i, s => do
    let (loaded, s) ← cacheMakeMagazine pages s true
    let (previous, s) ← cacheMakeMagazine pages s false
    initCpus n (i + 1) (s.setCpu i loaded previous)

/-- `kmem_cache_intialize`, over any contents of the memory. -/
def kmemCacheIntialize (memory : KmemCache) (size : ℕ) : Option KmemCache :=
  initCpus pages maxCpus 0
    { memory with objectSize := size, slabs := fun _ => [], magazines := fun _ => [] }

/-! ## The interface -/

def kmemAllocCache (s : KmemCache) (cpu : ℕ) : Option (ℕ × KmemCache) := do
  guard (cpu < maxCpus)
  let ⟨loaded, previous⟩ := s.cpuCache cpu
  if 0 < (s.mag loaded).count then s.magPop loaded
  else do
    guard (previous ≠ 0)
    if (s.mag previous).count = magSize then (s.setCpu cpu previous loaded).magPop previous
    else
      match (s.magazines magazinesFull).head? with
      | some m => do
        let s ← s.magRemove magazinesFull m
        let s ← s.magAppend magazinesEmpty previous
        (s.setCpu cpu m loaded).magPop m
      | none => cacheAllocFromSlabs pages s

/-- The depot path of `kmem_free_cache` is taken: the loaded magazine is full and the previous one is
not empty. -/
def TakesDepot (s : KmemCache) (cpu : ℕ) : Prop :=
  ¬ (s.mag (s.cpuCache cpu).loaded).count < magSize ∧ (s.mag (s.cpuCache cpu).previous).count ≠ 0

instance (s : KmemCache) (cpu : ℕ) : Decidable (TakesDepot s cpu) :=
  inferInstanceAs (Decidable (_ ∧ _))

def kmemFreeCache (s : KmemCache) (cpu obj : ℕ) : Option KmemCache := do
  guard (cpu < maxCpus)
  let ⟨loaded, previous⟩ := s.cpuCache cpu
  if (s.mag loaded).count < magSize then s.magPush loaded obj
  else if (s.mag previous).count = 0 then (s.setCpu cpu previous loaded).magPush previous obj
  else do
    let s ← s.magAppend magazinesFull loaded
    let (m, s) ← match (s.magazines magazinesFull).head? with
      | some m => do
        let s ← s.magRemove magazinesFull m
        some (m, s)
      | none => cacheMakeMagazine pages s false
    ((s.setCpu cpu m loaded).setCount m 0).magPush m obj

end

end LykOS.Kmem
