import LykOS.Lib.Bytes

/-!
# ELF files

The records of `common/elf.h` that the loaders read, decoded from the bytes of a packed C struct, with
the fields they use, and `elf_check_compatibility` of `common/elf.c` for x86_64.
-/

namespace LykOS.Elf

/-- `sizeof(Elf64_Ehdr)`. -/
def sizeofEhdr : ℕ := 64
/-- `sizeof(Elf64_Shdr)`. -/
def sizeofShdr : ℕ := 64
/-- The bytes of an `Elf64_Sym` up to the end of `st_shndx`. -/
def symToShndx : ℕ := 8
/-- The bytes of an `Elf64_Sym` up to the end of `st_value`. -/
def symToValue : ℕ := 16
/-- `sizeof(Elf64_Rela)`. -/
def sizeofRela : ℕ := 24
/-- `sizeof(Elf64_Phdr)`. -/
def sizeofPhdr : ℕ := 56

def etRel : ℕ := 1
def etExec : ℕ := 2
def emX8664 : ℕ := 0x3E

/-- `Elf64_Ehdr`. -/
structure Ehdr where
  ident : List UInt8
  type : ℕ
  machine : ℕ
  entry : ℕ
  phoff : ℕ
  shoff : ℕ
  phentsize : ℕ
  phnum : ℕ
  shentsize : ℕ
  shnum : ℕ
  deriving DecidableEq, Repr

def Ehdr.decode (m : ℕ → UInt8) : Ehdr where
  ident := (List.range 16).map m
  type := Bytes.le m 16 2
  machine := Bytes.le m 18 2
  entry := Bytes.le m 24 8
  phoff := Bytes.le m 32 8
  shoff := Bytes.le m 40 8
  phentsize := Bytes.le m 54 2
  phnum := Bytes.le m 56 2
  shentsize := Bytes.le m 58 2
  shnum := Bytes.le m 60 2

/-- `elf_check_compatibility`: the magic number, the class, the data encoding, the machine and the
version. -/
def elfCheckCompatibility (h : Ehdr) : Bool :=
  h.ident.take 4 = [0x7F, 0x45, 0x4C, 0x46] && h.ident[4]? = some 2 && h.ident[5]? = some 1 &&
    h.machine = emX8664 && h.ident[6]? = some 1

theorem Ehdr.decode_congr {m m' : ℕ → UInt8} (h : ∀ k < sizeofEhdr, m k = m' k) :
    Ehdr.decode m = Ehdr.decode m' := by
  have hle : ∀ p n, p + n ≤ sizeofEhdr → Bytes.le m p n = Bytes.le m' p n := fun p n hpn =>
    Bytes.le_congr fun k hk => h (p + k) (by omega)
  have hident : (List.range 16).map m = (List.range 16).map m' :=
    List.map_congr_left fun k hk => h k (Nat.lt_trans (List.mem_range.mp hk) (by decide))
  rw [Ehdr.decode, Ehdr.decode, hident, hle 16 2 (by decide), hle 18 2 (by decide),
    hle 24 8 (by decide), hle 32 8 (by decide), hle 40 8 (by decide), hle 54 2 (by decide),
    hle 56 2 (by decide), hle 58 2 (by decide), hle 60 2 (by decide)]

/-! ## Program headers -/

def ptLoad : ℕ := 1

/-- `Elf64_Phdr`. -/
structure Phdr where
  type : ℕ
  offset : ℕ
  vaddr : ℕ
  filesz : ℕ
  memsz : ℕ
  deriving DecidableEq, Repr

def Phdr.decode (m : ℕ → UInt8) (p : ℕ) : Phdr where
  type := Bytes.le m p 4
  offset := Bytes.le m (p + 8) 8
  vaddr := Bytes.le m (p + 16) 8
  filesz := Bytes.le m (p + 32) 8
  memsz := Bytes.le m (p + 40) 8

theorem Phdr.decode_congr {m m' : ℕ → UInt8} {p : ℕ}
    (h : ∀ k < p + sizeofPhdr, m k = m' k) : Phdr.decode m p = Phdr.decode m' p := by
  have hle : ∀ q n, q + n ≤ p + sizeofPhdr → Bytes.le m q n = Bytes.le m' q n := fun q n hqn =>
    Bytes.le_congr fun k hk => h (q + k) (by omega)
  unfold sizeofPhdr at hle
  rw [Phdr.decode, Phdr.decode, hle p 4 (by omega), hle (p + 8) 8 (by omega),
    hle (p + 16) 8 (by omega), hle (p + 32) 8 (by omega), hle (p + 40) 8 (by omega)]

/-! ## Sections -/

def shtProgbits : ℕ := 1
def shtSymtab : ℕ := 2
def shtRela : ℕ := 4
def shtNobits : ℕ := 8
def shfAlloc : ℕ := 0x2
def shnUndef : ℕ := 0x0
def shnAbs : ℕ := 0xFFF1
def shnCommon : ℕ := 0xFFF2

/-- `Elf64_Shdr`. -/
structure Shdr where
  type : ℕ
  flags : ℕ
  offset : ℕ
  size : ℕ
  link : ℕ
  info : ℕ
  entsize : ℕ
  deriving DecidableEq, Repr

def Shdr.decode (m : ℕ → UInt8) (p : ℕ) : Shdr where
  type := Bytes.le m (p + 4) 4
  flags := Bytes.le m (p + 8) 8
  offset := Bytes.le m (p + 24) 8
  size := Bytes.le m (p + 32) 8
  link := Bytes.le m (p + 40) 4
  info := Bytes.le m (p + 44) 4
  entsize := Bytes.le m (p + 56) 8

/-! ## Symbols and relocations -/

/-- `Elf64_Sym`. -/
structure Sym where
  name : ℕ
  shndx : ℕ
  value : ℕ
  deriving DecidableEq, Repr

def Sym.decode (m : ℕ → UInt8) (p : ℕ) : Sym where
  name := Bytes.le m p 4
  shndx := Bytes.le m (p + 6) 2
  value := Bytes.le m (p + 8) 8

/-- `Elf64_Rela`; the addend is signed. -/
structure Rela where
  offset : ℕ
  info : ℕ
  addend : ℤ
  deriving DecidableEq, Repr

/-- A 64-bit word as a signed number. -/
def signed64 (n : ℕ) : ℤ := if n < 2 ^ 63 then n else (n : ℤ) - 2 ^ 64

def Rela.decode (m : ℕ → UInt8) (p : ℕ) : Rela where
  offset := Bytes.le m p 8
  info := Bytes.le m (p + 8) 8
  addend := signed64 (Bytes.le m (p + 16) 8)

/-- `ELF64_R_SYM`. -/
def Rela.sym (r : Rela) : ℕ := r.info >>> 32

/-- The relocation types that are supported. -/
inductive RelocType
  | r64
  | pc32
  | plt32
  | r32
  | r32s
  | pc64
  deriving DecidableEq, Repr

def Rela.type? (r : Rela) : Option RelocType :=
  match r.info &&& 0xFFFFFFFF with
  | 1 => some .r64
  | 2 => some .pc32
  | 4 => some .plt32
  | 10 => some .r32
  | 11 => some .r32s
  | 24 => some .pc64
  | _ => none

end LykOS.Elf
