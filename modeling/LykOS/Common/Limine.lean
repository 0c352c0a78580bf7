import LykOS.Arch.Types

/-!
# The memory map of the boot loader

The entries of `request_memmap.response`, as `pmm_init` and `vmm_init` read them. The entry types are
those of the Limine protocol, whose header is not part of the repository.
-/

namespace LykOS

inductive MemmapType
  | usable
  | reserved
  | acpiReclaimable
  | acpiNvs
  | badMemory
  | bootloaderReclaimable
  | executableAndModules
  | framebuffer
  deriving DecidableEq, Repr

/-- `struct limine_memmap_entry`. -/
structure MemmapEntry where
  base : ℕ
  length : ℕ
  type : MemmapType
  deriving DecidableEq, Repr

def usableEntries (map : List MemmapEntry) : List MemmapEntry :=
  map.filter fun e => e.type = .usable

end LykOS
