import LykOS.Lib.Bytes
import LykOS.Mm.Kmem.Slabs

/-!
# The heap

`mm/heap.c`: eight caches of `mm/kmem.c`, for objects of 8 up to 1024 bytes. The caches share one memory,
given by its aligned words (`State.word`); it holds the objects with their links, and the `cache` field in
the header of each slab, which `heap_free` reads. The pages that each cache gets from `pmm_alloc(0) + HHDM`
and the addresses `&g_caches[i]` are a parameter, `Env`.
-/

namespace LykOS.Heap

open Kmem

/-! ## Size classes -/

def gCacheSizes : List ℕ := [8, 16, 32, 64, 128, 256, 512, 1024]

def cacheSize (i : ℕ) : ℕ := gCacheSizes.getD i 0

/-- `__builtin_clzll(x)` for `x ≠ 0`. -/
def clzll (x : ℕ) : ℕ := 63 - x.log2

/-- The index of the cache for `size`, as `heap_alloc` and `heap_free_size` compute it. -/
def order (size : ℕ) : ℕ := if size ≤ 8 then 0 else 61 - clzll (size - 1)

theorem cacheSize_eq : ∀ i < 8, cacheSize i = 2 ^ (i + 3) := by decide

theorem cacheSize_pos {i : ℕ} (hi : i < 8) : 0 < cacheSize i := by
  rw [cacheSize_eq i hi]
  exact Nat.two_pow_pos _

theorem dvd_cacheSize {i : ℕ} (hi : i < 8) : 8 ∣ cacheSize i := by
  rw [cacheSize_eq i hi]
  exact Nat.pow_dvd_pow 2 (Nat.le_add_left 3 i)

theorem cacheSize_lt {i j : ℕ} (hij : i < j) (hj : j < 8) : cacheSize i < cacheSize j := by
  rw [cacheSize_eq i (by omega), cacheSize_eq j hj]
  exact Nat.pow_lt_pow_right (by decide) (by omega)

theorem order_le_iff {j : ℕ} (hj : j < 8) (size : ℕ) : order size ≤ j ↔ size ≤ cacheSize j := by
  have hpow : 2 ^ 3 ≤ 2 ^ (j + 3) := Nat.pow_le_pow_right (by decide) (by omega)
  rw [cacheSize_eq j hj]
  unfold order
  split_ifs with hsize
  · exact iff_of_true (Nat.zero_le j) (by omega)
  · have hlog : (size - 1).log2 < j + 3 ↔ size - 1 < 2 ^ (j + 3) := Nat.log2_lt (by omega)
    have hmin : ¬ (size - 1).log2 < 3 := by
      rw [Nat.log2_lt (by omega)]
      omega
    unfold clzll
    omega

theorem order_lt {size : ℕ} (h : size ≤ 1024) : order size < 8 :=
  Nat.lt_succ_of_le ((order_le_iff (by decide) size).mpr h)

theorem le_cacheSize_order {size : ℕ} (h : size ≤ 1024) : size ≤ cacheSize (order size) :=
  (order_le_iff (order_lt h) size).mp le_rfl

theorem order_cacheSize {i : ℕ} (hi : i < 8) : order (cacheSize i) = i := by
  refine Nat.le_antisymm ((order_le_iff hi _).mpr le_rfl) ?_
  by_contra hlt
  have hle := (order_le_iff (j := order (cacheSize i)) (by omega) (cacheSize i)).mp le_rfl
  exact absurd hle (Nat.not_le.mpr (cacheSize_lt (by omega) hi))

/-! ## State -/

def slabSize : ℕ := 0x1000

/-- The offset of `cache` in a `kmem_slab_t`, after the two links. -/
def cacheOffset : ℕ := 16

/-- What the heap relies on: cache `i` gets the pages `pages i`, no page is given to two caches, and
cache `i` is at `gCaches i`. -/
structure Env where
  pages : ℕ → ℕ → ℕ
  gCaches : ℕ → ℕ
  fresh : ∀ i, FreshPages (pages i)
  apart : ∀ i j k l, pages i k = pages j l → i = j
  gCaches_injective : Function.Injective gCaches

/-- The cache that a pointer refers to. -/
def Env.cacheAt (env : Env) (ptr : ℕ) : Option ℕ := (List.range 8).find? (env.gCaches · = ptr)

/-- `g_caches` and the memory. -/
structure State where
  caches : ℕ → KmemCache
  word : ℕ → ℕ

/-- A cache with the memory that it works on. -/
def State.cache (h : State) (i : ℕ) : KmemCache := { h.caches i with word := h.word }

/-- The heap after a call took cache `i` from `s` to `c`: the slabs that the call made, by
`cache_make_slab`, have got their `cache` field. -/
def State.commit (env : Env) (h : State) (i : ℕ) (s c : KmemCache) : State where
  caches := Function.update h.caches i c
  word := fun a =>
    if ∃ b ∈ c.slabsAll, b ∉ s.slabsAll ∧ a = b + cacheOffset then env.gCaches i else c.word a

/-! ## The interface -/

section

variable (env : Env)

def heapAlloc (h : State) (cpu size : ℕ) : Option (ℕ × State) := do
  guard (size ≤ 1024)
  let i := order size
  let (obj, c) ← kmemAllocCache (env.pages i) (h.cache i) cpu
  return (obj, h.commit env i (h.cache i) c)

def heapFreeSize (h : State) (cpu obj size : ℕ) : Option State := do
  let i := order size
  guard (i < 8)
  let c ← kmemFreeCache (env.pages i) (h.cache i) cpu obj
  return h.commit env i (h.cache i) c

/-- `obj & ~(SLAB_SIZE - 1)`. -/
def slabOf (obj : ℕ) : ℕ := obj / slabSize * slabSize

def heapFree (h : State) (cpu obj : ℕ) : Option State := do
  let i ← env.cacheAt (h.word (slabOf obj + cacheOffset))
  heapFreeSize env h cpu obj (h.cache i).objectSize

/-- The thread may be on another CPU when it frees the old object. -/
def heapRealloc (h : State) (cpu cpu' obj oldSize newSize : ℕ) : Option (ℕ × State) := do
  let (newObj, h) ← heapAlloc env h cpu newSize
  if obj ≠ 0 then do
    let h := { h with word := Bytes.copy h.word newObj obj oldSize }
    let h ← heapFreeSize env h cpu' obj oldSize
    return (newObj, h)
  else return (newObj, h)

/-- The loop of `heap_init`: `n` caches from cache `i` on. -/
def initCaches : ℕ → ℕ → State → Option State
  | 0, _, h => some h
  | n + 1, i, h => do
    let c ← kmemCacheIntialize (env.pages i) (h.cache i) (cacheSize i)
    initCaches n (i + 1) (h.commit env i { h.cache i with slabs := fun _ => [] } c)

/-- `heap_init`, over any contents of the memory. -/
def heapInit (memory : State) : Option State := initCaches env 8 0 memory

end

/-! ## Worlds -/

/-- The heap and the outstanding objects, each with the size that was asked for. -/
structure World where
  heap : State
  out : List (ℕ × ℕ)

/-- A call from some CPU, or the write of a byte by a user into an object it holds. -/
inductive Op
  | alloc (cpu size : ℕ)
  | free (cpu : ℕ) (p : ℕ × ℕ)
  | freeSize (cpu : ℕ) (p : ℕ × ℕ)
  | realloc (cpu cpu' : ℕ) (p : ℕ × ℕ) (size : ℕ)
  | store (p : ℕ × ℕ) (k : ℕ) (v : UInt8)

/-- Only outstanding objects are freed, with their size, or written, in their bounds; they are reallocated
to sizes that are not smaller, and `NULL` to any size. -/
def heapStep (env : Env) (w : World) : Op → Option World
  | .alloc cpu size => do
    let (obj, h) ← heapAlloc env w.heap cpu size
    return ⟨h, (obj, size) :: w.out⟩
  | .free cpu p => do
    guard (p ∈ w.out)
    let h ← heapFree env w.heap cpu p.1
    return ⟨h, w.out.erase p⟩
  | .freeSize cpu p => do
    guard (p ∈ w.out)
    let h ← heapFreeSize env w.heap cpu p.1 p.2
    return ⟨h, w.out.erase p⟩
  | .realloc cpu cpu' p size => do
    guard (p.1 = 0 ∨ p ∈ w.out ∧ p.2 ≤ size)
    let (obj, h) ← heapRealloc env w.heap cpu cpu' p.1 p.2 size
    return ⟨h, (obj, size) :: if p.1 = 0 then w.out else w.out.erase p⟩
  | .store p k v => do
    guard (p ∈ w.out ∧ k < cacheSize (order p.2))
    return { w with heap := { w.heap with word := Bytes.setByte w.heap.word (p.1 + k) v } }

end LykOS.Heap
