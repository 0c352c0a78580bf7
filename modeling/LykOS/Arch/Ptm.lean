import LykOS.Arch.Aarch64.Ptm
import LykOS.Arch.X8664.Ptm.Runs

/-!
# The two implementations of the page tables

Runs of map operations are the same for both. On x86_64 the lookup of a page that is not mapped returns
`BAD_ADDRESS`, on aarch64 it never does (`unmapped_lookup_iff`).
-/

namespace LykOS.PageTables

open Run
open X8664 (FrameSupply CanonicalPage)

inductive Arch where
  | x8664
  | aarch64
  deriving DecidableEq

def aarch64Interface (F : FrameSupply) : Interface where
  State := Aarch64.Ptm
  Map := Aarch64.Map
  taken s := s.taken
  boot memory init :=
    some (if init then Aarch64.archPtmInit F.frames (Aarch64.boot memory) else Aarch64.boot memory)
  newMap := Aarch64.archPtmNewMap F.frames
  map := Aarch64.archPtmMap F.frames
  unmap := Aarch64.archPtmUnmap F.frames
  virtToPhys := Aarch64.archPtmVirtToPhys F.frames

def Arch.interface (F : FrameSupply) : Arch → Interface
  | .x8664 => X8664.interface F
  | .aarch64 => aarch64Interface F

/-- The lookup of an address in a page that is not mapped, after any run, returns `BAD_ADDRESS` exactly on
x86_64. -/
theorem unmapped_lookup_iff (a : Arch) {F : FrameSupply} {memory : ℕ → Fin 512 → ℕ} {init : Bool}
    {w₀ w : World (a.interface F).State (a.interface F).Map}
    (h₀ : start F (a.interface F) memory init = some w₀) {ops : List Op}
    (hrun : run (step F (a.interface F) init) w₀ ops = some w) {j v o : ℕ}
    {m : (a.interface F).Map} (hj : w.maps[j]? = some m) (hv : CanonicalPage v) (ho : o < archPageGran)
    (hview : w.view j v = none) :
    (a.interface F).virtToPhys w.ptm m (v + o) = some badAddress ↔ a = .x8664 := by
  cases a with
  | x8664 =>
    obtain ⟨frame, h⟩ := X8664.run_inv h₀ hrun
    have hlookup := h.lookup hj hv ho
    rw [hview] at hlookup
    exact iff_of_true (congrArg some hlookup) rfl
  | aarch64 => exact iff_of_false (Aarch64.archPtmVirtToPhys_ne_bad m (v + o)) (by simp)

/-- The page behind the only one that is mapped. -/
theorem unmapped_lookup_sample :
    ∃ w₀ w m, start X8664.sampleSupply (Arch.x8664.interface X8664.sampleSupply) (fun _ _ => 0) true =
        some w₀ ∧
      run (step X8664.sampleSupply _ true) w₀ [.newMap, .map 0 0x400000 0x7000000] = some w ∧
      w.maps[0]? = some m ∧
      (Arch.x8664.interface X8664.sampleSupply).virtToPhys w.ptm m (0x401000 + 5) = some badAddress := by
  obtain ⟨w₀, h₀, w, hrun, m, hm, hview⟩ :
      ∃ w₀ ∈ start X8664.sampleSupply (Arch.x8664.interface X8664.sampleSupply) (fun _ _ => 0) true,
        ∃ w ∈ run (step X8664.sampleSupply _ true) w₀ [.newMap, .map 0 0x400000 0x7000000],
          ∃ m ∈ w.maps[0]?, w.view 0 0x401000 = none := by decide +kernel
  exact ⟨w₀, w, m, h₀, hrun, hm,
    (unmapped_lookup_iff .x8664 h₀ hrun hm (by decide) (by decide) hview).mpr rfl⟩

/-- In a new map on aarch64, the lookup of address 0 reads through `NULL`. Once the page is mapped, the
lookup of address `0x1005` in the next page returns 5. -/
theorem aarch64_lookup_not_bad :
    ∃ w₀ w w' m, start X8664.sampleSupply (Arch.aarch64.interface X8664.sampleSupply) (fun _ _ => 0)
        true = some w₀ ∧
      run (step X8664.sampleSupply _ true) w₀ [.newMap] = some w ∧
      run (step X8664.sampleSupply _ true) w [.map 0 0 0x7000000] = some w' ∧
      w'.maps[0]? = some m ∧ w.view 0 0 = none ∧ w'.view 0 0x1000 = none ∧
      (Arch.aarch64.interface X8664.sampleSupply).virtToPhys w.ptm m 0 = none ∧
      (Arch.aarch64.interface X8664.sampleSupply).virtToPhys w'.ptm m 0x1005 = some 5 := by
  refine ⟨_, _, _, _, rfl, rfl, rfl, rfl, rfl, rfl, rfl, rfl⟩

end LykOS.PageTables
