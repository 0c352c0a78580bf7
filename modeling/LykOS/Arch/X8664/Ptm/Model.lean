import Mathlib.Data.List.FinRange
import LykOS.Arch.Types
import LykOS.Lib.Radix

/-!
# Page tables on x86_64

`arch/x86_64/ptm.c`. A table is named by the physical address of its frame; the offset `HHDM` that the
source adds for access and takes away again is left out. The frames that `pmm_alloc(0)` returns are a
parameter, `frames`, and `taken` counts how many of them have been taken. A failed `ASSERT` or a
`panic` has no result. `arch_ptm_load_map`, which only sets a register, is left out.
-/

namespace LykOS.X8664

open Radix

def present : ℕ := 1 <<< 0
def write : ℕ := 1 <<< 1
def user : ℕ := 1 <<< 2
def huge : ℕ := 1 <<< 7
def global : ℕ := 1 <<< 8

def pteGetAddr (value : ℕ) : ℕ := value &&& 0x000FFFFFFFFFF000

/-- The tables in memory, `higher_half_entries`, and the number of frames taken. -/
structure Ptm where
  tables : ℕ → Fin 512 → ℕ
  higherHalfEntries : Fin 256 → ℕ
  taken : ℕ

/-- `(virt >> shift) & 0x1FF`. -/
def tableEntry (virt shift : ℕ) : Fin 512 :=
  ⟨(virt >>> shift) &&& 0x1FF, Nat.and_lt_two_pow (n := 9) _ (by decide)⟩

/-- The entries that the loops go through: `table_entries[3]` down to `table_entries[1]`. -/
def tablePath (virt : ℕ) : List (Fin 512) :=
  [tableEntry virt 39, tableEntry virt 30, tableEntry virt 21]

/-- `table[idx] = value`. -/
def Ptm.setEntry (s : Ptm) (table : ℕ) (idx : Fin 512) (value : ℕ) : Ptm :=
  { s with tables := Radix.setEntry s.tables table idx value }

section

variable (frames : ℕ → ℕ)

def getNextLevel (s : Ptm) (topLevel : ℕ) (idx : Fin 512) (alloc : Bool) : Option ℕ × Ptm :=
  if s.tables topLevel idx &&& present ≠ 0 then (some (pteGetAddr (s.tables topLevel idx)), s)
  else if alloc = false then (none, s)
  else
    let nextLevel := frames s.taken
    let s := { s with
      tables := Function.update s.tables nextLevel fun _ => 0
      taken := s.taken + 1 }
    (some nextLevel, s.setEntry topLevel idx (nextLevel ||| present ||| write ||| user))

/-- The loops over the levels, which end at a missing table. -/
def descend (alloc : Bool) : List (Fin 512) → Ptm → ℕ → Option ℕ × Ptm
  | [], s, table => (some table, s)
  | idx :: path, s, table =>
    match getNextLevel frames s table idx alloc with
    | (none, s) => (none, s)
    | (some table, s) => descend alloc path s table

def archPtmMap (s : Ptm) (pml4 virt phys size : ℕ) : Option Ptm := do
  guard (virt % size = 0)
  guard (phys % size = 0)
  let (table, s) := descend frames true (tablePath virt) s pml4
  let table ← table
  return s.setEntry table (tableEntry virt 12) (phys ||| present ||| write ||| user)

def archPtmUnmap (s : Ptm) (pml4 virt phys size : ℕ) : Option Ptm := do
  guard (virt % size = 0)
  guard (phys % size = 0)
  match (descend frames false (tablePath virt) s pml4).1 with
  | none => return s
  | some table => return s.setEntry table (tableEntry virt 12) 0

theorem sub_lt_half (i : Fin 512) (h : 256 ≤ i.val) : i.val - 256 < 256 := by omega

/-- The entries of a new PML4: the lower half is empty, the higher half is `higher_half_entries`. -/
def newEntries (s : Ptm) (i : Fin 512) : ℕ :=
  if h : 256 ≤ i.val then s.higherHalfEntries ⟨i - 256, sub_lt_half i h⟩ else 0

def archPtmNewMap (s : Ptm) : ℕ × Ptm :=
  let pml4 := frames s.taken
  (pml4, { s with tables := Function.update s.tables pml4 (newEntries s), taken := s.taken + 1 })

def archPtmVirtToPhys (s : Ptm) (pml4 virt : ℕ) : ℕ :=
  match (descend frames false (tablePath virt) s pml4).1 with
  | none => badAddress
  | some table =>
    let pte := s.tables table (tableEntry virt 12)
    if pte &&& present = 0 then badAddress else pteGetAddr pte + (virt &&& 0xFFF)

/-- One round of `arch_ptm_init`. -/
def initEntry (s : Ptm) (i : Fin 256) : Option Ptm := do
  let phys := frames s.taken
  guard (phys ≠ 0)
  return { tables := Function.update s.tables phys fun _ => 0
           higherHalfEntries :=
             Function.update s.higherHalfEntries i (phys ||| present ||| write ||| global)
           taken := s.taken + 1 }

def archPtmInit (s : Ptm) : Option Ptm := (List.finRange 256).foldlM (initEntry frames) s

end

/-- `delete_level` with a depth of `n + 1`: the frames that it hands to `pmm_free`, in order. -/
def deleteLevel (s : Ptm) : ℕ → ℕ → List ℕ
  | 0, lvl => [lvl]
  | n + 1, lvl =>
    (List.finRange 512).flatMap (fun i =>
      if s.tables lvl i &&& present = 0 ∨ s.tables lvl i &&& huge ≠ 0 then []
      else deleteLevel s n (pteGetAddr (s.tables lvl i))) ++ [lvl]

/-- `arch_ptm_clear_map`: the frames that it hands to `pmm_free`. -/
def archPtmClearMap (s : Ptm) (pml4 : ℕ) : List ℕ := deleteLevel s 3 pml4

end LykOS.X8664
