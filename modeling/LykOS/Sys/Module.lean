import LykOS.Common.Elf
import LykOS.Fs.Vfs.Model
import LykOS.Mm.Vmm.Model
import LykOS.Sys.Ksym

/-!
# Loading kernel modules

`module_load` of `sys/module.c`. The memory of the kernel is a function of the virtual address, and
`vmm_mmap` places a section in the kernel's address space and clears it. Buffers on the heap, such as
`section_addr`, and on the stack hold arbitrary bytes (`Junk`) where nothing fills them. A write to a section
that was not loaded goes to an arbitrary address; that it may hit the loader's own tables is left out.

An entry of a relocation section is applied by storing the low bytes of a 64-bit value (`relocate_spec`), so
it reads back as that value exactly if the value fits the field.
-/

namespace LykOS.Module

open Elf List

/-- How `module_load` ends without a module: `NULL`, the `ASSERT` of `heap_alloc`, or a step that is not
defined. -/
inductive Stop
  | null
  | panic
  | undefined
  deriving DecidableEq, Repr

/-- A step that is undefined without a result. -/
def defined {α : Type} (x : Option α) : Except Stop α := x.elim (.error .undefined) .ok

/-- The loader stops with `e` unless `p`. -/
def check (p : Prop) [Decidable p] (e : Stop) : Except Stop Unit := if p then .ok () else .error e

/-- `module_t`. -/
structure Mod where
  install : ℕ
  destroy : ℕ
  name : ℕ
  version : ℕ
  description : ℕ
  author : ℕ
  deriving DecidableEq, Repr

/-- What the buffers of `module_load` hold before it writes to them. -/
structure Junk where
  shdr : ℕ → UInt8
  sectionAddr : ℕ → ℕ
  symtab : ℕ → UInt8
  strtab : ℕ → UInt8
  rela : ℕ → ℕ → UInt8
  module : Mod

/-- The kernel's address space and its memory. -/
structure Kernel where
  space : Vmm.AddrSpace
  mem : ℕ → UInt8

/-- The memory with `len` bytes cleared at `p`. -/
def clear (mem : ℕ → UInt8) (p len : ℕ) : ℕ → UInt8 := fun a =>
  if p ≤ a ∧ a < p + len then 0 else mem a

/-! ## Sections -/

/-- `vmm_mmap(g_vmm_kernel_addr_space, 0, len, VMM_PROT_FULL, VMM_MAP_ANON | VMM_MAP_POPULATE |
VMM_MAP_PRIVATE, NULL, 0)`. -/
def Kernel.mmap (k : Kernel) (len : ℕ) : Option (ℕ × Kernel) := do
  let (virt, space) ← Vmm.mmapPlace k.space ⟨0, len, Vmm.vmmProtFull,
    Vmm.vmmMapAnon ||| Vmm.vmmMapPopulate ||| Vmm.vmmMapPrivate, none, 0⟩
  let virt ← virt
  return (virt, ⟨space, clear k.mem virt len⟩)

/-- The memory of one section, if it gets any. -/
def loadSection (file : Vfs.Vnode) (sec : Shdr) (k : Kernel) : Option (Option ℕ × Kernel) :=
  if sec.size = 0 ∨ sec.flags &&& shfAlloc = 0 then some (none, k)
  else if sec.type = shtProgbits then do
    let (addr, k) ← k.mmap (ceilTo sec.size archPageGran)
    return (some addr, { k with mem := Bytes.put k.mem addr (file.read sec.offset sec.size).2 })
  else if sec.type = shtNobits then do
    let (addr, k) ← k.mmap (ceilTo sec.size archPageGran)
    return (some addr, { k with mem := clear k.mem addr sec.size })
  else some (none, k)

/-- The arrays `shdr` and `section_addr`. -/
structure Sections where
  shdr : ℕ → UInt8
  addr : ℕ → ℕ

/-- `shdr[i]`. -/
def Sections.hdr (t : Sections) (i : ℕ) : Shdr := Shdr.decode t.shdr (i * sizeofShdr)

/-- One round of the loop over the sections; the product in the file offset is an `int`. -/
def sectionRound (file : Vfs.Vnode) (ehdr : Ehdr) (x : Sections × Kernel) (i : ℕ) :
    Except Stop (Sections × Kernel) := do
  let (t, k) := x
  check (ehdr.shentsize * i < 2 ^ 31) .undefined
  let bytes := (file.read (u64 (ehdr.shoff + ehdr.shentsize * i)) sizeofShdr).2
  let t := { t with shdr := Bytes.put t.shdr (i * sizeofShdr) bytes }
  let (addr, k) ← defined (loadSection file (t.hdr i) k)
  return ({ t with addr := addr.elim t.addr (Function.update t.addr i) }, k)

/-! ## Symbols -/

/-- What the loader knows of the file when it comes to the symbols. -/
structure Tables where
  shnum : ℕ
  sections : Sections
  symtabHdr : Shdr
  symtab : ℕ → UInt8
  strtab : ℕ → UInt8
  strtabSize : ℕ

/-- The last section of type `SHT_SYMTAB`. -/
def findSymtab (t : Sections) (shnum : ℕ) : Option ℕ :=
  (List.range shnum).foldl (fun r i => if (t.hdr i).type = shtSymtab then some i else r) none

/-- The string at `p` in a buffer of `size` bytes. -/
def cstrAt (m : ℕ → UInt8) (size p : ℕ) : Option CStr :=
  let l := (List.range (size - p)).map fun k => m (p + k)
  if l.any (· == 0) then
    some ⟨l.takeWhile (· ≠ 0), fun c hc => by simpa using mem_takeWhile_imp hc⟩
  else none

/-- The names that `module_fetch_modinfo` looks for start with `__module_`. -/
def modinfoName (l : List Char) : List UInt8 :=
  (['_', '_', 'm', 'o', 'd', 'u', 'l', 'e', '_'] ++ l).map fun c => UInt8.ofNat c.toNat

def moduleFetchModinfo (m : Mod) (name : CStr) (value : ℕ) : Mod :=
  if name.chars = modinfoName ['i', 'n', 's', 't', 'a', 'l', 'l'] then { m with install := value }
  else if name.chars = modinfoName ['d', 'e', 's', 't', 'r', 'o', 'y'] then
    { m with destroy := value }
  else if name.chars = modinfoName ['n', 'a', 'm', 'e'] then { m with name := value }
  else if name.chars = modinfoName ['v', 'e', 'r', 's', 'i', 'o', 'n'] then
    { m with version := value }
  else if name.chars = modinfoName ['d', 'e', 's', 'c', 'r', 'i', 'p', 't', 'i', 'o', 'n'] then
    { m with description := value }
  else if name.chars = modinfoName ['a', 'u', 't', 'h', 'o', 'r'] then { m with author := value }
  else m

/-- The place of a symbol in `symtab`. -/
def Tables.place (t : Tables) (i : ℕ) : ℕ := u64 (i * t.symtabHdr.entsize)

/-- The symbol with index `i`, if its first `n` bytes are in `symtab`. -/
def Tables.sym (t : Tables) (symtab : ℕ → UInt8) (i n : ℕ) : Option Sym :=
  if t.place i + n ≤ t.symtabHdr.size then some (Sym.decode symtab (t.place i)) else none

/-- `sym->st_value = value`. -/
def Tables.setValue (t : Tables) (symtab : ℕ → UInt8) (i value : ℕ) : ℕ → UInt8 :=
  Bytes.put symtab (t.place i + 8) (Bytes.ofNat 8 value)

/-- One round of the loop that resolves the symbols. -/
def resolveRound (ksyms : List UInt8) (t : Tables) (x : (ℕ → UInt8) × Mod) (i : ℕ) :
    Except Stop ((ℕ → UInt8) × Mod) := do
  let (symtab, module) := x
  let sym ← defined (t.sym symtab i symToShndx)
  if sym.shndx = shnUndef then do
    let name ← defined (cstrAt t.strtab t.strtabSize sym.name)
    let value ← defined (Ksym.ksymResolveSymbol ksyms name)
    check (t.place i + symToValue ≤ t.symtabHdr.size) .undefined
    check (value ≠ 0) .null
    return (t.setValue symtab i value.toNat, module)
  else if sym.shndx = shnAbs ∨ sym.shndx = shnCommon then return (symtab, module)
  else do
    check (sym.shndx < t.shnum) .undefined
    check (t.place i + symToValue ≤ t.symtabHdr.size) .undefined
    let value := u64 (sym.value + t.sections.addr sym.shndx)
    let name ← defined (cstrAt t.strtab t.strtabSize sym.name)
    return (t.setValue symtab i value, moduleFetchModinfo module name value)

/-! ## Relocations -/

def relocSize : RelocType → ℕ
  | .r64 | .pc64 => 8
  | .pc32 | .plt32 | .r32 | .r32s => 4

/-- The types for which `value -= (uptr)addr`. -/
def pcRelative : RelocType → Bool
  | .pc32 | .plt32 | .pc64 => true
  | .r64 | .r32 | .r32s => false

def wrap (z : ℤ) : ℕ := (z % 2 ^ 64).toNat

/-- A relocation that was applied: the section it is for, its field, the address of the symbol and the
addend, and the memory after it. -/
structure Patch where
  type : RelocType
  sym : ℕ
  target : ℕ
  addr : ℕ
  s : ℕ
  a : ℤ
  mem : ℕ → UInt8

/-- The `value` that is copied to `addr`. -/
def relocValue (type : RelocType) (s : ℕ) (a : ℤ) (addr : ℕ) : ℕ :=
  let value := wrap (s + a)
  if pcRelative type then wrap ((value : ℤ) - addr) else value

/-- One relocation of a section that is for the section `target`. -/
def relocate (t : Tables) (symtab : ℕ → UInt8) (target : ℕ) (rela : Rela) (mem : ℕ → UInt8) :
    Except Stop Patch := do
  let sym ← defined (t.sym symtab rela.sym symToValue)
  check (target < t.shnum) .undefined
  let addr := u64 (t.sections.addr target + rela.offset)
  let type ← rela.type?.elim (.error .null) .ok
  check (addr + relocSize type ≤ 2 ^ 64) .undefined
  let value := relocValue type sym.value rela.addend addr
  return ⟨type, rela.sym, target, addr, sym.value, rela.addend,
    Bytes.put mem addr (Bytes.ofNat (relocSize type) value)⟩

/-- The memory and the relocations applied so far. -/
abbrev Relocated := (ℕ → UInt8) × List Patch

/-- One round of the loop over the entries of a relocation section. -/
def relaRound (t : Tables) (symtab : ℕ → UInt8) (target : ℕ) (entries : ℕ → UInt8) (x : Relocated)
    (j : ℕ) : Except Stop Relocated := do
  let patch ← relocate t symtab target (Rela.decode entries (j * sizeofRela)) x.1
  return (patch.mem, x.2 ++ [patch])

/-- One round of the loop over the relocation sections. The entries are read into an array that holds a
whole number of them. -/
def relocRound (file : Vfs.Vnode) (junk : Junk) (t : Tables) (symtab : ℕ → UInt8) (x : Relocated)
    (i : ℕ) : Except Stop Relocated := do
  let sec := t.sections.hdr i
  if sec.type ≠ shtRela then return x
  else do
    check (sec.entsize ≠ 0) .undefined
    let count := sec.size / sec.entsize
    let bytes := (file.read sec.offset sec.size).2
    check (bytes.length ≤ count * sizeofRela) .undefined
    let entries := Bytes.put (junk.rela i) 0 bytes
    (List.range count).foldlM (relaRound t symtab sec.info entries) x

/-! ## `module_load` -/

/-- The largest size that `heap_alloc` takes. -/
def heapMax : ℕ := 1024

/-- The symbol table and the string table. -/
def readTables (file : Vfs.Vnode) (junk : Junk) (shnum : ℕ) (sections : Sections) :
    Except Stop Tables := do
  let i ← (findSymtab sections shnum).elim (.error .null) .ok
  let hdr := sections.hdr i
  check (hdr.size ≤ heapMax) .panic
  check (hdr.link < shnum) .undefined
  let str := sections.hdr hdr.link
  check (str.size ≤ heapMax) .panic
  check (hdr.entsize ≠ 0) .undefined
  return ⟨shnum, sections, hdr, Bytes.put junk.symtab 0 (file.read hdr.offset hdr.size).2,
    Bytes.put junk.strtab 0 (file.read str.offset str.size).2, str.size⟩

/-- What `module_load` returns and leaves behind, with its tables and the relocations it applied. -/
structure Loaded where
  module : Mod
  kernel : Kernel
  tables : Tables
  patches : List Patch

def moduleLoad (ksyms : List UInt8) (junk : Junk) (k : Kernel) (file : Vfs.Vnode) :
    Except Stop Loaded := do
  let (status, bytes) := file.read 0 sizeofEhdr
  check (¬ (status < 0 ∨ bytes.length ≠ sizeofEhdr)) .null
  let ehdr := Ehdr.decode fun i => bytes[i]?.getD 0
  check (elfCheckCompatibility ehdr) .null
  check (ehdr.type = etRel) .null
  -- for `shdr`; `section_addr` is smaller
  check (ehdr.shnum * sizeofShdr ≤ heapMax) .panic
  let (sections, k) ← (List.range ehdr.shnum).foldlM (sectionRound file ehdr)
    (⟨junk.shdr, junk.sectionAddr⟩, k)
  let t ← readTables file junk ehdr.shnum sections
  let count := t.symtabHdr.size / t.symtabHdr.entsize
  let (symtab, module) ← (List.range' 1 (count - 1)).foldlM (resolveRound ksyms t)
    (t.symtab, junk.module)
  check (¬ (module.install = 0 ∨ module.destroy = 0)) .null
  let (mem, patches) ← (List.range ehdr.shnum).foldlM (relocRound file junk t symtab) (k.mem, [])
  return ⟨module, { k with mem }, t, patches⟩

/-! ## What the loops do -/

variable {t : Tables} {i j : ℕ} {α β : Type} {ksyms : List UInt8} {symtab : ℕ → UInt8}
  {file : Vfs.Vnode} {junk : Junk} {x y : (ℕ → UInt8) × Mod} {b b' : β}

theorem defined_eq_ok {x : Option α} {a : α} : defined x = .ok a ↔ x = some a := by
  cases x <;> simp [defined]

theorem bind_eq_ok {x : Except Stop α} {f : α → Except Stop β} :
    x >>= f = .ok b ↔ ∃ a, x = .ok a ∧ f a = .ok b := by
  cases x with
  | error e =>
    constructor
    · intro h
      cases h
    · rintro ⟨_, h, -⟩
      cases h
  | ok a =>
    constructor
    · exact fun h => ⟨a, rfl, h⟩
    · rintro ⟨_, h, hf⟩
      cases h
      exact hf

theorem foldlM_induction {f : β → α → Except Stop β} {I : β → Prop}
    (hstep : ∀ b a b', I b → f b a = .ok b' → I b') {l : List α} (hb : I b)
    (h : l.foldlM f b = .ok b') : I b' := by
  induction l generalizing b with
  | nil =>
    cases h
    exact hb
  | cons a l ih =>
    rw [foldlM_cons] at h
    obtain ⟨c, hc, h⟩ := bind_eq_ok.mp h
    exact ih (hstep b a c hb hc) h

theorem foldlM_range_induction {f : β → ℕ → Except Stop β} {I : ℕ → β → Prop} {n : ℕ}
    (hstep : ∀ i b b', I i b → f b i = .ok b' → I (i + 1) b') (hb : I 0 b)
    (h : (List.range n).foldlM f b = .ok b') : I n b' := by
  induction n generalizing b' with
  | zero =>
    cases h
    exact hb
  | succ n ih =>
    rw [range_succ, foldlM_append] at h
    obtain ⟨c, hc, h⟩ := bind_eq_ok.mp h
    rw [foldlM_cons] at h
    obtain ⟨d, hd, h⟩ := bind_eq_ok.mp h
    cases h
    exact hstep n c b' (ih hc) hd

theorem foldlM_iff {f : β → α → Except Stop β} {S : β → Prop} {Q : α → Prop}
    (hstep : ∀ b a b', f b a = .ok b' → (S b' ↔ S b ∧ Q a)) {l : List α} (h : l.foldlM f b = .ok b') :
    S b' ↔ S b ∧ ∀ a ∈ l, Q a := by
  induction l generalizing b with
  | nil =>
    cases h
    simp
  | cons a l ih =>
    rw [foldlM_cons] at h
    obtain ⟨c, hc, h⟩ := bind_eq_ok.mp h
    rw [ih h, hstep b a c hc, forall_mem_cons, and_assoc]

/-- The phases of a run of `module_load` that returns a module: `k'` is the kernel with the sections
loaded, and `symtab` holds the resolved symbols. -/
structure Phases (ksyms : List UInt8) (junk : Junk) (k : Kernel) (file : Vfs.Vnode) (r : Loaded)
    (ehdr : Ehdr) (k' : Kernel) (symtab : ℕ → UInt8) : Prop where
  sections : (List.range r.tables.shnum).foldlM (sectionRound file ehdr)
    (⟨junk.shdr, junk.sectionAddr⟩, k) = .ok (r.tables.sections, k')
  symbols : (List.range' 1 (r.tables.symtabHdr.size / r.tables.symtabHdr.entsize - 1)).foldlM
    (resolveRound ksyms r.tables) (r.tables.symtab, junk.module) = .ok (symtab, r.module)
  required : r.module.install ≠ 0 ∧ r.module.destroy ≠ 0
  relocs : (List.range r.tables.shnum).foldlM (relocRound file junk r.tables symtab)
    (k'.mem, []) = .ok (r.kernel.mem, r.patches)
  space : r.kernel.space = k'.space
  small : r.tables.symtabHdr.size ≤ heapMax

theorem check_eq_ok {p : Prop} [Decidable p] {e : Stop} {u : Unit} : check p e = .ok u ↔ p := by
  unfold check
  split_ifs with hp <;> simp [hp]

theorem readTables_spec {shnum : ℕ} {sections : Sections}
    (h : readTables file junk shnum sections = .ok t) :
    t.shnum = shnum ∧ t.sections = sections ∧ t.symtabHdr.size ≤ heapMax := by
  obtain ⟨_, -, h⟩ := bind_eq_ok.mp h
  obtain ⟨_, hsize, h⟩ := bind_eq_ok.mp h
  obtain ⟨_, -, h⟩ := bind_eq_ok.mp h
  obtain ⟨_, -, h⟩ := bind_eq_ok.mp h
  obtain ⟨_, -, h⟩ := bind_eq_ok.mp h
  cases h
  exact ⟨rfl, rfl, check_eq_ok.mp hsize⟩

theorem moduleLoad_phases {k : Kernel} {r : Loaded} (h : moduleLoad ksyms junk k file = .ok r) :
    ∃ ehdr k' symtab, Phases ksyms junk k file r ehdr k' symtab := by
  unfold moduleLoad at h
  obtain ⟨_, -, h⟩ := bind_eq_ok.mp h
  obtain ⟨_, -, h⟩ := bind_eq_ok.mp h
  obtain ⟨_, -, h⟩ := bind_eq_ok.mp h
  obtain ⟨_, -, h⟩ := bind_eq_ok.mp h
  obtain ⟨⟨sections, k'⟩, hsections, h⟩ := bind_eq_ok.mp h
  obtain ⟨t, ht, h⟩ := bind_eq_ok.mp h
  obtain ⟨⟨symtab, module⟩, hsyms, h⟩ := bind_eq_ok.mp h
  obtain ⟨_, hreq, h⟩ := bind_eq_ok.mp h
  obtain ⟨⟨mem, patches⟩, hrelocs, h⟩ := bind_eq_ok.mp h
  cases h
  obtain ⟨hshnum, rfl, hsmall⟩ := readTables_spec ht
  rw [← hshnum] at hsections hrelocs
  exact ⟨_, k', symtab, hsections, hsyms, not_or.mp (check_eq_ok.mp hreq), hrelocs, rfl, hsmall⟩

theorem relocate_spec {mem : ℕ → UInt8} {target : ℕ} {rela : Rela} {x : Patch}
    (h : relocate t symtab target rela mem = .ok x) :
    (∃ sym, t.sym symtab x.sym symToValue = some sym ∧ x.s = sym.value) ∧
      x.mem = Bytes.put mem x.addr
        (Bytes.ofNat (relocSize x.type) (relocValue x.type x.s x.a x.addr)) := by
  unfold relocate at h
  obtain ⟨sym, hsym, h⟩ := bind_eq_ok.mp h
  obtain ⟨_, -, h⟩ := bind_eq_ok.mp h
  obtain ⟨type, -, h⟩ := bind_eq_ok.mp h
  obtain ⟨_, -, h⟩ := bind_eq_ok.mp h
  cases h
  exact ⟨⟨sym, defined_eq_ok.mp hsym, rfl⟩, rfl⟩

/-- The fields of two relocations share no byte. -/
def Patch.Apart (x y : Patch) : Prop :=
  x.addr + relocSize x.type ≤ y.addr ∨ y.addr + relocSize y.type ≤ x.addr

/-- What holds of a relocation that was applied with the resolved symbols `symtab`. -/
structure Patch.Applied (t : Tables) (symtab : ℕ → UInt8) (x : Patch) : Prop where
  sym : ∃ sym, t.sym symtab x.sym symToValue = some sym ∧ x.s = sym.value
  mem : ∃ mem, x.mem = Bytes.put mem x.addr
    (Bytes.ofNat (relocSize x.type) (relocValue x.type x.s x.a x.addr))

/-- The state of the relocation loops: each relocation was applied, and its field is as it left it
unless a later one wrote there. -/
structure Relocs (t : Tables) (symtab : ℕ → UInt8) (x : Relocated) : Prop where
  applied : ∀ p ∈ x.2, p.Applied t symtab
  kept : ∀ before p after, x.2 = before ++ p :: after → (∀ q ∈ after, p.Apart q) →
    ∀ k < relocSize p.type, x.1 (p.addr + k) = p.mem (p.addr + k)

theorem relaRound_relocs {entries : ℕ → UInt8} {target : ℕ} {x y : Relocated} (hx : Relocs t symtab x)
    (h : relaRound t symtab target entries x j = .ok y) : Relocs t symtab y := by
  obtain ⟨new, hnew, h⟩ := bind_eq_ok.mp h
  cases h
  obtain ⟨hsym, hmem⟩ := relocate_spec hnew
  refine ⟨fun p hp => ?_, fun before p after hsplit hapart k hk => ?_⟩
  · rcases mem_append.mp hp with hp | hp
    · exact hx.applied p hp
    · rw [mem_singleton.mp hp]
      exact ⟨hsym, x.1, hmem⟩
  · rcases eq_nil_or_concat after with rfl | ⟨init, last, rfl⟩
    · -- the new relocation itself
      obtain ⟨-, hp⟩ := append_inj' hsplit rfl
      cases hp
      rfl
    · rw [concat_eq_append, ← cons_append, ← append_assoc] at hsplit
      obtain ⟨hbefore, hlast⟩ := append_inj' hsplit rfl
      obtain rfl : new = last := (List.cons.inj hlast).1
      rw [concat_eq_append] at hapart
      have hkept := hx.kept before p init hbefore
        (fun q hq => hapart q (mem_append_left _ hq)) k hk
      have hdis := hapart new (by simp)
      rw [← hkept]
      simp only [hmem]
      apply Bytes.put_of_disjoint
      rw [Bytes.length_ofNat]
      unfold Patch.Apart at hdis
      omega

theorem relocRound_relocs {x y : Relocated} (hx : Relocs t symtab x)
    (h : relocRound file junk t symtab x i = .ok y) : Relocs t symtab y := by
  by_cases htype : (t.sections.hdr i).type ≠ shtRela
  · simp only [relocRound, if_pos htype] at h
    cases h
    exact hx
  · simp only [relocRound, if_neg htype] at h
    obtain ⟨_, -, h⟩ := bind_eq_ok.mp h
    obtain ⟨_, -, h⟩ := bind_eq_ok.mp h
    exact foldlM_induction (fun _ _ _ hb hr => relaRound_relocs hb hr) hx h

/-! ## Symbols -/

/-- The address of a symbol of the file: the kernel's, its own value, or its place in a section. -/
def symbolAddr (ksyms : List UInt8) (t : Tables) (sym : Sym) : Option ℕ :=
  if sym.shndx = shnUndef then do
    let name ← cstrAt t.strtab t.strtabSize sym.name
    (Ksym.ksymResolveSymbol ksyms name).map UInt64.toNat
  else if sym.shndx = shnAbs ∨ sym.shndx = shnCommon then some sym.value
  else some (u64 (sym.value + t.sections.addr sym.shndx))

/-- Symbols that share no byte that the loader uses, in a table that `heap_alloc` has room for. -/
structure Tables.Separate (t : Tables) : Prop where
  wide : symToValue ≤ t.symtabHdr.entsize
  small : t.symtabHdr.size ≤ heapMax

def Tables.count (t : Tables) : ℕ := t.symtabHdr.size / t.symtabHdr.entsize

theorem Tables.Separate.mul_le (h : t.Separate) (hi : i < t.count) :
    i * t.symtabHdr.entsize + t.symtabHdr.entsize ≤ t.symtabHdr.size := by
  have hpos : 0 < t.symtabHdr.entsize := Nat.lt_of_lt_of_le (by decide) h.wide
  rw [← Nat.succ_mul]
  exact (Nat.le_div_iff_mul_le hpos).mp hi

theorem Tables.Separate.place_eq (h : t.Separate) (hi : i < t.count) :
    t.place i = i * t.symtabHdr.entsize := by
  have hle := h.mul_le hi
  have hsmall := h.small
  unfold heapMax at hsmall
  exact u64_of_lt (by omega)

theorem Tables.Separate.apart (h : t.Separate) (hi : i < t.count) (hj : j < t.count) (hij : i < j) :
    t.place i + symToValue ≤ t.place j := by
  rw [h.place_eq hi, h.place_eq hj]
  calc i * t.symtabHdr.entsize + symToValue ≤ (i + 1) * t.symtabHdr.entsize := by
        rw [Nat.succ_mul]
        exact Nat.add_le_add_left h.wide _
    _ ≤ j * t.symtabHdr.entsize := Nat.mul_le_mul_right _ hij

theorem setValue_value (t : Tables) (symtab : ℕ → UInt8) (i : ℕ) {v : ℕ} (hv : v < 2 ^ 64) :
    (Sym.decode (t.setValue symtab i v) (t.place i)).value = v := by
  have h := Bytes.le_put_ofNat symtab (t.place i + 8) 8 v
  rwa [Nat.mod_eq_of_lt (show v < 256 ^ 8 from hv)] at h

theorem setValue_ne (ht : t.Separate) (hi : i < t.count) (hj : j < t.count) (symtab : ℕ → UInt8)
    (hij : j ≠ i) (v : ℕ) :
    Sym.decode (t.setValue symtab i v) (t.place j) = Sym.decode symtab (t.place j) := by
  have hapart : t.place j + 16 ≤ t.place i ∨ t.place i + 16 ≤ t.place j :=
    (Nat.lt_or_gt_of_ne hij).imp (ht.apart hj hi) (ht.apart hi hj)
  have hkeep : ∀ q n, q + n ≤ 16 → Bytes.le (t.setValue symtab i v) (t.place j + q) n =
      Bytes.le symtab (t.place j + q) n := by
    intro q n hq
    apply Bytes.le_put_of_disjoint
    rw [Bytes.length_ofNat]
    omega
  simp only [Sym.decode, Sym.mk.injEq]
  exact ⟨hkeep 0 4 (by decide), hkeep 6 2 (by decide), hkeep 8 8 (by decide)⟩

def InSection (sym : Sym) : Prop :=
  sym.shndx ≠ shnUndef ∧ ¬ (sym.shndx = shnAbs ∨ sym.shndx = shnCommon)

instance (sym : Sym) : Decidable (InSection sym) := inferInstanceAs (Decidable (_ ∧ _))

def Tables.addrOf (t : Tables) (sym : Sym) : ℕ := u64 (sym.value + t.sections.addr sym.shndx)

theorem sym_eq_some {sym : Sym} {n : ℕ} (h : t.sym symtab i n = some sym) :
    sym = Sym.decode symtab (t.place i) := by
  unfold Tables.sym at h
  split_ifs at h
  exact (Option.some.inj h).symm

theorem resolveRound_cases (h : resolveRound ksyms t x i = .ok y) :
    ∃ sym, t.sym x.1 i symToShndx = some sym ∧
      ((sym.shndx = shnUndef ∧ ∃ value : UInt64, value ≠ 0 ∧
          symbolAddr ksyms t sym = some value.toNat ∧ y = (t.setValue x.1 i value.toNat, x.2)) ∨
        (sym.shndx ≠ shnUndef ∧ (sym.shndx = shnAbs ∨ sym.shndx = shnCommon) ∧
          symbolAddr ksyms t sym = some sym.value ∧ y = x) ∨
        InSection sym ∧ sym.shndx < t.shnum ∧ t.sym x.1 i symToValue = some sym ∧
          symbolAddr ksyms t sym = some (t.addrOf sym) ∧
          ∃ name, cstrAt t.strtab t.strtabSize sym.name = some name ∧
            y = (t.setValue x.1 i (t.addrOf sym), moduleFetchModinfo x.2 name (t.addrOf sym))) := by
  obtain ⟨sym, hsym, h⟩ := bind_eq_ok.mp h
  refine ⟨sym, defined_eq_ok.mp hsym, ?_⟩
  by_cases hundef : sym.shndx = shnUndef
  · rw [if_pos hundef] at h
    obtain ⟨name, hname, h⟩ := bind_eq_ok.mp h
    obtain ⟨value, hvalue, h⟩ := bind_eq_ok.mp h
    obtain ⟨_, -, h⟩ := bind_eq_ok.mp h
    obtain ⟨_, hne, h⟩ := bind_eq_ok.mp h
    cases h
    refine Or.inl ⟨hundef, value, check_eq_ok.mp hne, ?_, rfl⟩
    rw [symbolAddr, if_pos hundef, defined_eq_ok.mp hname]
    simp only [Option.bind_eq_bind, Option.bind_some, defined_eq_ok.mp hvalue, Option.map_some]
  · rw [if_neg hundef] at h
    by_cases habs : sym.shndx = shnAbs ∨ sym.shndx = shnCommon
    · rw [if_pos habs] at h
      cases h
      refine Or.inr (Or.inl ⟨hundef, habs, ?_, rfl⟩)
      rw [symbolAddr, if_neg hundef, if_pos habs]
    · rw [if_neg habs] at h
      obtain ⟨_, hlt, h⟩ := bind_eq_ok.mp h
      obtain ⟨_, hroom, h⟩ := bind_eq_ok.mp h
      obtain ⟨name, hname, h⟩ := bind_eq_ok.mp h
      cases h
      refine Or.inr (Or.inr ⟨⟨hundef, habs⟩, check_eq_ok.mp hlt, ?_, ?_, name, defined_eq_ok.mp hname, rfl⟩)
      · rw [sym_eq_some (defined_eq_ok.mp hsym), Tables.sym, if_pos (check_eq_ok.mp hroom)]
      · rw [symbolAddr, if_neg hundef, if_neg habs]
        rfl

theorem resolveRound_effect (ht : t.Separate) (hi : i < t.count) (h : resolveRound ksyms t x i = .ok y) :
    (∃ sym, t.sym x.1 i symToShndx = some sym ∧
        symbolAddr ksyms t sym = some (Sym.decode y.1 (t.place i)).value) ∧
      ∀ j < t.count, j ≠ i → Sym.decode y.1 (t.place j) = Sym.decode x.1 (t.place j) := by
  obtain ⟨sym, hsym, ⟨-, value, -, haddr, rfl⟩ | ⟨-, -, haddr, rfl⟩ |
    ⟨-, -, -, haddr, name, -, rfl⟩⟩ := resolveRound_cases h
  · refine ⟨⟨sym, hsym, ?_⟩, fun j hj hij => setValue_ne ht hi hj x.1 hij _⟩
    rw [haddr, setValue_value t _ _ value.toNat_lt]
  · refine ⟨⟨sym, hsym, ?_⟩, fun j _ _ => rfl⟩
    rw [haddr, ← sym_eq_some hsym]
  · refine ⟨⟨sym, hsym, ?_⟩, fun j hj hij => setValue_ne ht hi hj x.1 hij _⟩
    have hlt : t.addrOf sym < 2 ^ 64 := u64_lt _
    rw [haddr, setValue_value t _ _ hlt]

theorem resolveRound_sym (ht : t.Separate) (hi : i < t.count) (h : resolveRound ksyms t x i = .ok y)
    (hj : j < t.count) (hij : j ≠ i) (n : ℕ) : t.sym y.1 j n = t.sym x.1 j n := by
  unfold Tables.sym
  rw [(resolveRound_effect ht hi h).2 j hj hij]

theorem resolve_effect (ht : t.Separate) :
    ∀ {l : List ℕ} {x y : (ℕ → UInt8) × Mod}, l.Nodup → (∀ i ∈ l, i < t.count) →
      l.foldlM (resolveRound ksyms t) x = .ok y →
      (∀ i ∈ l, ∃ sym, t.sym x.1 i symToShndx = some sym ∧
          symbolAddr ksyms t sym = some (Sym.decode y.1 (t.place i)).value) ∧
        ∀ j < t.count, j ∉ l → Sym.decode y.1 (t.place j) = Sym.decode x.1 (t.place j) := by
  intro l
  induction l with
  | nil =>
    intro x y _ _ h
    cases h
    exact ⟨fun i hi => absurd hi not_mem_nil, fun j _ _ => rfl⟩
  | cons a l ih =>
    intro x y hnd hlt h
    rw [foldlM_cons] at h
    obtain ⟨z, hz, h⟩ := bind_eq_ok.mp h
    obtain ⟨hal, hnd⟩ := nodup_cons.mp hnd
    obtain ⟨ha, hlt⟩ := forall_mem_cons.mp hlt
    obtain ⟨hself, hother⟩ := resolveRound_effect ht ha hz
    obtain ⟨hin, hout⟩ := ih hnd hlt h
    refine ⟨fun i hi => ?_, fun j hjc hj => ?_⟩
    · rcases mem_cons.mp hi with rfl | hi
      · rw [hout i ha hal]
        exact hself
      · obtain ⟨sym, hsym, haddr⟩ := hin i hi
        rw [resolveRound_sym ht ha hz (hlt i hi) fun e => hal (e ▸ hi)] at hsym
        exact ⟨sym, hsym, haddr⟩
    · rw [mem_cons, not_or] at hj
      rw [hout j hjc hj.2, hother j hjc hj.1]

/-! ## Fields that are read back -/

/-- The field as its type prescribes: whole, zero-extended or sign-extended. -/
def readBack (type : RelocType) (mem : ℕ → UInt8) (addr : ℕ) : ℕ :=
  match type with
  | .r64 | .pc64 => Bytes.le mem addr 8
  | .r32 => Bytes.le mem addr 4
  | .r32s | .pc32 | .plt32 =>
    let n := Bytes.le mem addr 4
    if n < 2 ^ 31 then n else n + (2 ^ 64 - 2 ^ 32)

/-- `S + A`, minus the address of the field where the type is relative to it, modulo `2 ^ 64`. -/
def Patch.exact (x : Patch) : ℕ :=
  if pcRelative x.type then wrap (x.s + x.a - x.addr) else wrap (x.s + x.a)

/-- The exact value is one that the field can hold. -/
def Patch.Fits (x : Patch) : Prop :=
  match x.type with
  | .r64 | .pc64 => True
  | .r32 => x.exact < 2 ^ 32
  | .r32s | .pc32 | .plt32 => x.exact < 2 ^ 31 ∨ 2 ^ 64 - 2 ^ 31 ≤ x.exact

theorem wrap_lt (z : ℤ) : wrap z < 2 ^ 64 := by
  unfold wrap
  omega

theorem relocValue_eq (x : Patch) : relocValue x.type x.s x.a x.addr = x.exact := by
  unfold relocValue Patch.exact
  dsimp only
  split
  · unfold wrap
    omega
  · rfl

theorem exact_lt (x : Patch) : x.exact < 2 ^ 64 := by
  rw [← relocValue_eq, relocValue]
  split <;> exact wrap_lt _

theorem readBack_iff {x : Patch} (h : x.Applied t symtab) :
    readBack x.type x.mem x.addr = x.exact ↔ x.Fits := by
  obtain ⟨mem, hmem⟩ := h.mem
  have hread : Bytes.le x.mem x.addr (relocSize x.type) = x.exact % 256 ^ relocSize x.type := by
    rw [hmem, relocValue_eq, Bytes.le_put_ofNat]
  have hlt := exact_lt x
  unfold readBack Patch.Fits
  generalize x.exact = v at hread hlt ⊢
  cases htype : x.type <;> rw [htype, relocSize] at hread <;> simp only [hread, iff_true]
  case r64 | pc64 => exact Nat.mod_eq_of_lt hlt
  case r32 => omega
  case r32s | pc32 | plt32 => split_ifs <;> omega

/-- In a module that is loaded, the field of a relocation reads back as the exact value exactly if the
field can hold that value. The symbol of the relocation has its final address, and the field is still
the same when the loader returns, unless a later relocation writes there. -/
theorem relocation_exact_iff {ksyms : List UInt8} {junk : Junk} {k : Kernel} {file : Vfs.Vnode}
    {r : Loaded} (h : moduleLoad ksyms junk k file = .ok r) :
    (∀ x ∈ r.patches, readBack x.type x.mem x.addr = x.exact ↔ x.Fits) ∧
      (∀ x ∈ r.patches, symToValue ≤ r.tables.symtabHdr.entsize → x.sym ≠ 0 →
        x.sym < r.tables.count →
          ∃ sym, r.tables.sym r.tables.symtab x.sym symToValue = some sym ∧
            symbolAddr ksyms r.tables sym = some x.s) ∧
        ∀ before x after, r.patches = before ++ x :: after → (∀ y ∈ after, x.Apart y) →
          readBack x.type r.kernel.mem x.addr = readBack x.type x.mem x.addr := by
  obtain ⟨_, _, symtab, hphases⟩ := moduleLoad_phases h
  have hinv : Relocs r.tables symtab (r.kernel.mem, r.patches) :=
    foldlM_induction (fun _ _ _ hb hr => relocRound_relocs hb hr)
      ⟨fun p hp => absurd hp not_mem_nil, fun before p after hsplit => by simp at hsplit⟩
      hphases.relocs
  refine ⟨fun x hx => readBack_iff (hinv.applied x hx), fun x hx he hne hlt => ?_,
    fun before x after hsplit hapart => ?_⟩
  · obtain ⟨sym, hsym, hs⟩ := (hinv.applied x hx).sym
    have hmem : x.sym ∈ List.range' 1 (r.tables.count - 1) := by
      rw [mem_range'_1]
      omega
    have hindices : ∀ i ∈ List.range' 1 (r.tables.count - 1), i < r.tables.count := fun i hi => by
      rw [mem_range'_1] at hi
      omega
    obtain ⟨raw, hraw, haddr⟩ :=
      (resolve_effect ⟨he, hphases.small⟩ nodup_range' hindices hphases.symbols).1 x.sym hmem
    refine ⟨raw, ?_, ?_⟩
    · have hroom := (Option.ite_none_right_eq_some.mp hsym).1
      rw [sym_eq_some hraw, Tables.sym, if_pos hroom]
    · rw [haddr, hs, sym_eq_some hsym]
  · have hkept := hinv.kept before x after hsplit hapart
    have hle : ∀ n ≤ relocSize x.type, Bytes.le r.kernel.mem x.addr n = Bytes.le x.mem x.addr n :=
      fun n hn => Bytes.le_congr fun k hk => hkept k (by omega)
    unfold readBack
    cases htype : x.type <;> rw [htype, relocSize] at hle <;> simp only [hle _ le_rfl]

/-! ## A module that calls the kernel -/

/-- A section header, without its name, address and alignment. -/
def shdrBytes (type flags offset size link info entsize : ℕ) : List UInt8 :=
  Bytes.ofNat 4 0 ++ Bytes.ofNat 4 type ++ Bytes.ofNat 8 flags ++ Bytes.ofNat 8 0 ++
    Bytes.ofNat 8 offset ++ Bytes.ofNat 8 size ++ Bytes.ofNat 4 link ++ Bytes.ofNat 4 info ++
      Bytes.ofNat 8 0 ++ Bytes.ofNat 8 entsize

def symBytes (name shndx value : ℕ) : List UInt8 :=
  Bytes.ofNat 4 name ++ Bytes.ofNat 2 0 ++ Bytes.ofNat 2 shndx ++ Bytes.ofNat 8 value ++
    Bytes.ofNat 8 0

/-- An object file with eight bytes of code, the symbols `k`, `__module_install` and
`__module_destroy`, and one relocation of the first field of the code to `k - 4`. -/
def sampleBytes (type : ℕ) : List UInt8 :=
  [0x7F, 0x45, 0x4C, 0x46, 2, 1, 1, 0, 0, 0, 0, 0, 0, 0, 0, 0] ++ Bytes.ofNat 2 1 ++
    Bytes.ofNat 2 0x3E ++ Bytes.ofNat 20 0 ++ Bytes.ofNat 8 229 ++ Bytes.ofNat 10 0 ++
      Bytes.ofNat 2 64 ++ Bytes.ofNat 2 5 ++ Bytes.ofNat 2 3 ++
  Bytes.ofNat 8 0 ++
  (symBytes 0 0 0 ++ symBytes 1 0 0 ++ symBytes 3 1 0 ++ symBytes 20 1 4) ++
  ([0, 107, 0] ++ modinfoName ['i', 'n', 's', 't', 'a', 'l', 'l'] ++ [0] ++
    modinfoName ['d', 'e', 's', 't', 'r', 'o', 'y'] ++ [0]) ++
  (Bytes.ofNat 8 0 ++ Bytes.ofNat 8 (2 ^ 32 + type) ++ Bytes.ofNat 8 (2 ^ 64 - 4)) ++
  (shdrBytes 0 0 0 0 0 0 0 ++ shdrBytes 1 2 64 8 0 0 0 ++ shdrBytes 2 0 72 96 3 0 24 ++
    shdrBytes 3 0 168 37 0 0 0 ++ shdrBytes 4 0 205 24 2 1 24)

def sampleFile (type : ℕ) : Vfs.Vnode where
  read offset count := (eok, ((sampleBytes type).drop offset).take count)
  cached := false
  length_read _ count := length_take_le count _

def sampleKernel : Kernel where
  space := ((Vmm.vmmInitSegs archKernelMinVirt 0xFFFFFFFF80000000 []).getD
    (Vmm.vmmNewAddrSpace 0 0))
  mem := fun _ => 0

def noJunk : Junk := ⟨fun _ => 0, fun _ => 0, fun _ => 0, fun _ => 0, fun _ _ => 0,
  ⟨0, 0, 0, 0, 0, 0⟩⟩

def sampleKsyms : List UInt8 := Bytes.ofNat 8 0xFFFFFFFF80001000 ++ [107, 0]

theorem toOption_eq_some {x : Except Stop α} {a : α} : x.toOption = some a ↔ x = .ok a := by
  cases x <;> simp [Except.toOption]

/-- With `R_X86_64_PC32` the distance from the module to the kernel does not fit, and is cut. -/
theorem far_call_truncated :
    ∃ r x, moduleLoad sampleKsyms noJunk sampleKernel (sampleFile 2) = .ok r ∧ x ∈ r.patches ∧
      x.exact = 0x7FFE80000FFC ∧ readBack x.type x.mem x.addr = 0xFFFFFFFF80000FFC := by
  obtain ⟨r, hr, x, hx, hread⟩ :
      ∃ r ∈ (moduleLoad sampleKsyms noJunk sampleKernel (sampleFile 2)).toOption, ∃ x ∈ r.patches,
        x.exact = 0x7FFE80000FFC ∧ readBack x.type x.mem x.addr = 0xFFFFFFFF80000FFC := by decide +kernel
  exact ⟨r, x, toOption_eq_some.mp hr, hx, hread⟩

/-- With `R_X86_64_64` the address of the symbol fits. -/
theorem relocation_exact_iff_sample :
    ∃ r x, moduleLoad sampleKsyms noJunk sampleKernel (sampleFile 1) = .ok r ∧ x ∈ r.patches ∧
      x.Fits ∧ readBack x.type x.mem x.addr = x.exact := by
  obtain ⟨r, hr, x, hmem, htype⟩ :
      ∃ r ∈ (moduleLoad sampleKsyms noJunk sampleKernel (sampleFile 1)).toOption, ∃ x ∈ r.patches,
        x.type = .r64 := by decide +kernel
  have hload := toOption_eq_some.mp hr
  have hfits : x.Fits := by rw [Patch.Fits, htype]; trivial
  exact ⟨r, x, hload, hmem, hfits, ((relocation_exact_iff hload).1 x hmem).mpr hfits⟩

end LykOS.Module
