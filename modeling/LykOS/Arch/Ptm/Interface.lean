import LykOS.Arch.X8664.Ptm.Tables
import LykOS.Lib.Run

/-!
# The interface of the page tables

`arch/ptm.h`, and runs of its operations over any implementation. A world has any number of maps, and for
each page of each map the frame last mapped there, `view`.
-/

namespace LykOS.PageTables

open X8664 (FrameSupply CanonicalPage IsFrame SharedPage)

/-- The functions of `arch/ptm.h`, over the frames that an implementation may take. A lookup that reads
through `NULL` has no result. `boot` is the state at the start over a memory, with or without
`arch_ptm_init`. -/
structure Interface where
  State : Type
  Map : Type
  taken : State → ℕ
  boot : (ℕ → Fin 512 → ℕ) → Bool → Option State
  newMap : State → Map × State
  map : State → Map → ℕ → ℕ → ℕ → Option State
  unmap : State → Map → ℕ → ℕ → ℕ → Option State
  virtToPhys : State → Map → ℕ → Option ℕ

/-- The page tables, the maps made so far, and the frame last mapped at a page of a map and not
unmapped since. A mapping in the shared half counts for every map. -/
structure World (State Map : Type) where
  ptm : State
  maps : List Map
  view : ℕ → ℕ → Option ℕ

inductive Op
  | newMap
  | map (j virt phys : ℕ)
  | unmap (j virt phys : ℕ)

/-- Page `virt` of map `j`, or of all maps if the page is shared, is mapped to `x`. -/
def setView (shared : Bool) (view : ℕ → ℕ → Option ℕ) (j virt : ℕ) (x : Option ℕ) :
    ℕ → ℕ → Option ℕ := fun j' virt' =>
  if virt' = virt ∧ (j' = j ∨ SharedPage shared virt) then x else view j' virt'

section

variable (F : FrameSupply) (I : Interface)

/-- One operation, for which the supply of frames has to last. -/
def step (shared : Bool) (w : World I.State I.Map) : Op → Option (World I.State I.Map)
  | .newMap => do
    let (m, s) := I.newMap w.ptm
    guard (I.taken s ≤ F.limit)
    return { w with ptm := s, maps := w.maps ++ [m] }
  | .map j virt phys => do
    guard (CanonicalPage virt ∧ IsFrame phys)
    let m ← w.maps[j]?
    let s ← I.map w.ptm m virt phys archPageGran
    guard (I.taken s ≤ F.limit)
    return { w with ptm := s, view := setView shared w.view j virt (some phys) }
  | .unmap j virt phys => do
    guard (CanonicalPage virt ∧ phys % archPageGran = 0)
    let m ← w.maps[j]?
    let s ← I.unmap w.ptm m virt phys archPageGran
    return { w with ptm := s, view := setView shared w.view j virt none }

/-- The start of a run, with or without `arch_ptm_init`, over any memory. -/
def start (memory : ℕ → Fin 512 → ℕ) (init : Bool) : Option (World I.State I.Map) := do
  let s ← I.boot memory init
  guard (I.taken s ≤ F.limit)
  return ⟨s, [], fun _ _ => none⟩

end

end LykOS.PageTables
