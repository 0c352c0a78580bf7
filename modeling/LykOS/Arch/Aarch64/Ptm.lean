import LykOS.Arch.X8664.Ptm.Tables

/-!
# Page tables on aarch64

`arch/aarch64/ptm.c`. It is `arch/x86_64/ptm.c` with other flags and with two roots: `pml4[0]` for the lower
half, and `pml4[1]`, one table for all maps, for the higher half. The loop of `arch_ptm_virt_to_phys` has no
check for a missing table, and its result none for a missing page, so it never returns `BAD_ADDRESS`
(`archPtmVirtToPhys_ne_bad`).

A read through a `NULL` table has no result.
-/

namespace LykOS.Aarch64

open X8664 (tableEntry tablePath pteGetAddr)

def present : ℕ := 1 <<< 0
def table : ℕ := 1 <<< 1
def page4K : ℕ := 1 <<< 1
def access : ℕ := 1 <<< 10

/-- The tables in memory, `higher_half_pml4`, and the number of frames taken. -/
structure Ptm where
  tables : ℕ → Fin 512 → ℕ
  higherHalfPml4 : Option ℕ
  taken : ℕ

/-- `arch_ptm_map_t`: `pml4[0]` and `pml4[1]`. -/
structure Map where
  lower : ℕ
  higher : Option ℕ

/-- `map->pml4[is_higher_half]`. -/
def Map.root (map : Map) (virt : ℕ) : Option ℕ :=
  if virt &&& 1 <<< 63 ≠ 0 then map.higher else some map.lower

/-- `table[idx] = value`. -/
def Ptm.setEntry (s : Ptm) (table : ℕ) (idx : Fin 512) (value : ℕ) : Ptm :=
  { s with tables := Radix.setEntry s.tables table idx value }

section

variable (frames : ℕ → ℕ)

/-- `memset(frame, 0, ARCH_PAGE_GRAN)` for the next frame. -/
def Ptm.zeroFrame (s : Ptm) : Ptm :=
  { s with
    tables := Function.update s.tables (frames s.taken) fun _ => 0
    taken := s.taken + 1 }

def getNextLevel (s : Ptm) (topLevel : ℕ) (idx : Fin 512) (alloc : Bool) : Option ℕ × Ptm :=
  if s.tables topLevel idx &&& present ≠ 0 then (some (pteGetAddr (s.tables topLevel idx)), s)
  else if alloc = false then (none, s)
  else
    let nextLevel := frames s.taken
    (some nextLevel, (s.zeroFrame frames).setEntry topLevel idx (nextLevel ||| present ||| table))

/-- The loops of `arch_ptm_map` and `arch_ptm_unmap`, which end at a missing table. -/
def descend (alloc : Bool) : List (Fin 512) → Ptm → ℕ → Option ℕ × Ptm
  | [], s, table => (some table, s)
  | idx :: path, s, table =>
    match getNextLevel frames s table idx alloc with
    | (none, s) => (none, s)
    | (some table, s) => descend alloc path s table

def archPtmMap (s : Ptm) (map : Map) (virt phys size : ℕ) : Option Ptm := do
  guard (virt % size = 0)
  guard (phys % size = 0)
  let (table, s) := descend frames true (tablePath virt) s (← map.root virt)
  return s.setEntry (← table) (tableEntry virt 12) (phys ||| present ||| page4K ||| access)

def archPtmUnmap (s : Ptm) (map : Map) (virt phys size : ℕ) : Option Ptm := do
  guard (virt % size = 0)
  guard (phys % size = 0)
  match (descend frames false (tablePath virt) s (← map.root virt)).1 with
  | none => return s
  | some table => return s.setEntry table (tableEntry virt 12) 0

def archPtmNewMap (s : Ptm) : Map × Ptm :=
  (⟨frames s.taken, s.higherHalfPml4⟩, s.zeroFrame frames)

/-- The loop of `arch_ptm_virt_to_phys`: the table may be `NULL`, and is read anyway. -/
def virtLoop (s : Ptm) : List (Fin 512) → Option ℕ → Option (Option ℕ)
  | [], table => some table
  | idx :: path, table => do
    virtLoop s path (getNextLevel frames s (← table) idx false).1

def archPtmVirtToPhys (s : Ptm) (map : Map) (virt : ℕ) : Option ℕ := do
  let table ← virtLoop frames s (tablePath virt) (map.root virt)
  return pteGetAddr (s.tables (← table) (tableEntry virt 12)) + (virt &&& 0xFFF)

def archPtmInit (s : Ptm) : Ptm :=
  { s.zeroFrame frames with higherHalfPml4 := some (frames s.taken) }

end

/-- The tables before `arch_ptm_init`. -/
def boot (memory : ℕ → Fin 512 → ℕ) : Ptm := ⟨memory, none, 0⟩

/-! ## Lookups -/

section

variable {frames : ℕ → ℕ} {s : Ptm}

theorem archPtmVirtToPhys_lt {map : Map} {virt phys : ℕ}
    (h : archPtmVirtToPhys frames s map virt = some phys) : phys < 2 ^ 52 := by
  simp only [archPtmVirtToPhys, Option.bind_eq_bind, Option.bind_eq_some_iff, Option.pure_def,
    Option.some_inj] at h
  obtain ⟨_, -, table, -, rfl⟩ := h
  have hoff : virt &&& 0xFFF < 2 ^ 12 := Nat.and_lt_two_pow _ (by decide)
  rw [X8664.pteGetAddr_eq]
  omega

theorem archPtmVirtToPhys_ne_bad (map : Map) (virt : ℕ) :
    archPtmVirtToPhys frames s map virt ≠ some badAddress := fun h =>
  absurd (archPtmVirtToPhys_lt h) (by decide)

end

end LykOS.Aarch64
