import LykOS.Mm.Vmm.Segments
import LykOS.Sys.Module

/-!
# Where relocations write

The loader maps memory for an allocated section of type `SHT_PROGBITS` or `SHT_NOBITS` and for no
other, but it applies the relocations of every section of type `SHT_RELA`: it adds the offset of an
entry to `section_addr[sh_info]`, an array on the heap that is not cleared, without a check of either. So the
stores stay in the module exactly if every entry of the file is for a section that was loaded, and its field
lies in that section.
-/

namespace LykOS.Module

open Elf

/-- The loader maps memory for the section. -/
def IsLoaded (sec : Shdr) : Prop :=
  sec.size ≠ 0 ∧ sec.flags &&& shfAlloc ≠ 0 ∧ (sec.type = shtProgbits ∨ sec.type = shtNobits)

instance (sec : Shdr) : Decidable (IsLoaded sec) := inferInstanceAs (Decidable (_ ∧ _ ∧ _))

def mappedLen (sec : Shdr) : ℕ := ceilTo sec.size archPageGran

/-- `seg` is the memory of the section with index `i`. -/
structure SectionMemory (space : Vmm.AddrSpace) (t : Sections) (i : ℕ) (seg : Vmm.Seg) : Prop where
  loaded : IsLoaded (t.hdr i)
  mem : seg ∈ space.segments
  base : seg.base = t.addr i
  len : seg.len = mappedLen (t.hdr i)

/-! ## Sections -/

variable {k k' : Kernel} {file : Vfs.Vnode}

theorem mmap_spec {len addr : ℕ} (h : k.mmap len = some (addr, k')) :
    (∃ seg ∈ k'.space.segments, seg.base = addr ∧ seg.len = len) ∧
      k.space.segments ⊆ k'.space.segments := by
  obtain ⟨⟨virt, space⟩, hplace, h⟩ := Option.bind_eq_some_iff.mp h
  obtain ⟨v, rfl, h⟩ := Option.bind_eq_some_iff.mp h
  cases h
  rcases Vmm.mmapPlace_eq hplace with ⟨-, -, hr⟩ | ⟨virt, -, -, hr⟩
  · cases hr
  · cases hr
    have hmem := @Interval.mem_insertByBase Vmm.Seg Vmm.Seg.base
    exact ⟨⟨_, hmem.mpr (Or.inl rfl), rfl, rfl⟩, fun seg hseg => hmem.mpr (Or.inr hseg)⟩

theorem loadSection_spec {sec : Shdr} {addr : Option ℕ}
    (h : loadSection file sec k = some (addr, k')) :
    (IsLoaded sec → ∃ seg ∈ k'.space.segments, addr = some seg.base ∧ seg.len = mappedLen sec) ∧
      k.space.segments ⊆ k'.space.segments := by
  unfold loadSection at h
  split_ifs at h with hskip hbits hnobits
  · cases h
    exact ⟨fun hl => absurd hskip (not_or.mpr ⟨hl.1, hl.2.1⟩), fun _ => id⟩
  · obtain ⟨⟨a, k₁⟩, hmap, h⟩ := Option.bind_eq_some_iff.mp h
    cases h
    obtain ⟨⟨seg, hseg, rfl, hlen⟩, hsub⟩ := mmap_spec hmap
    exact ⟨fun _ => ⟨seg, hseg, rfl, hlen⟩, hsub⟩
  · obtain ⟨⟨a, k₁⟩, hmap, h⟩ := Option.bind_eq_some_iff.mp h
    cases h
    obtain ⟨⟨seg, hseg, rfl, hlen⟩, hsub⟩ := mmap_spec hmap
    exact ⟨fun _ => ⟨seg, hseg, rfl, hlen⟩, hsub⟩
  · cases h
    exact ⟨fun hl => absurd hl.2.2 (not_or.mpr ⟨hbits, hnobits⟩), fun _ => id⟩

theorem hdr_put {m : ℕ → UInt8} {i j : ℕ} (hij : i ≠ j) {bytes : List UInt8}
    (hlen : bytes.length ≤ sizeofShdr) :
    Shdr.decode (Bytes.put m (j * sizeofShdr) bytes) (i * sizeofShdr) =
      Shdr.decode m (i * sizeofShdr) := by
  have hkeep : ∀ q n, q + n ≤ 64 → Bytes.le (Bytes.put m (j * sizeofShdr) bytes)
      (i * sizeofShdr + q) n = Bytes.le m (i * sizeofShdr + q) n := by
    intro q n hq
    apply Bytes.le_put_of_disjoint
    unfold sizeofShdr at *
    omega
  simp only [Shdr.decode, Shdr.mk.injEq]
  exact ⟨hkeep 4 4 (by decide), hkeep 8 8 (by decide), hkeep 24 8 (by decide), hkeep 32 8 (by decide),
    hkeep 40 4 (by decide), hkeep 44 4 (by decide), hkeep 56 8 (by decide)⟩

/-- After `n` rounds of the loop over the sections, those that are to be loaded have their memory. -/
def SectionsDone (n : ℕ) (x : Sections × Kernel) : Prop :=
  ∀ i < n, IsLoaded (x.1.hdr i) → ∃ seg, SectionMemory x.2.space x.1 i seg

theorem sectionRound_done {ehdr : Ehdr} {n : ℕ} {x y : Sections × Kernel} (hx : SectionsDone n x)
    (h : sectionRound file ehdr x n = .ok y) : SectionsDone (n + 1) y := by
  obtain ⟨_, -, h⟩ := bind_eq_ok.mp h
  obtain ⟨⟨addr, k'⟩, hload, h⟩ := bind_eq_ok.mp h
  cases h
  obtain ⟨hnew, hsub⟩ := loadSection_spec (defined_eq_ok.mp hload)
  generalize hbytes : (file.read (u64 (ehdr.shoff + ehdr.shentsize * n)) sizeofShdr).2 = bytes at *
  have hlen : bytes.length ≤ sizeofShdr := hbytes ▸ file.length_read _ _
  -- the round writes the header and the address of section `n` only
  have hhdr : ∀ i, i ≠ n → Shdr.decode (Bytes.put x.1.shdr (n * sizeofShdr) bytes)
      (i * sizeofShdr) = x.1.hdr i := fun i hi => hdr_put hi hlen
  have haddr : ∀ i, i ≠ n →
      addr.elim x.1.addr (Function.update x.1.addr n) i = x.1.addr i := by
    intro i hi
    cases addr with
    | none => rfl
    | some a => exact Function.update_of_ne hi _ _
  intro i hi hloaded
  by_cases hin : i = n
  · subst hin
    obtain ⟨seg, hseg, rfl, hseglen⟩ := hnew hloaded
    exact ⟨seg, hloaded, hseg, (Function.update_self i seg.base x.1.addr).symm, hseglen⟩
  · simp only [Sections.hdr, hhdr i hin] at hloaded
    obtain ⟨seg, hold, hseg, hbase, hseglen⟩ := hx i (by omega) hloaded
    refine ⟨seg, ?_, hsub hseg, ?_, ?_⟩
    · simpa only [Sections.hdr, hhdr i hin] using hold
    · simpa only [haddr i hin] using hbase
    · simpa only [Sections.hdr, hhdr i hin] using hseglen

theorem Phases.sectionMemory {ksyms : List UInt8} {junk : Junk} {r : Loaded} {ehdr : Ehdr}
    {symtab : ℕ → UInt8} (h : Phases ksyms junk k file r ehdr k' symtab) :
    ∀ i < r.tables.shnum, IsLoaded (r.tables.sections.hdr i) →
      ∃ seg, SectionMemory r.kernel.space r.tables.sections i seg := by
  have hdone : SectionsDone r.tables.shnum (r.tables.sections, k') :=
    foldlM_range_induction (fun _ _ _ hx hr => sectionRound_done hx hr)
      (fun i hi => absurd hi (Nat.not_lt_zero i)) h.sections
  rw [h.space]
  exact hdone

/-! ## Stores -/

/-- The field of the relocation lies in the memory of the section that it is for, and in the
section. -/
def Patch.Inside (space : Vmm.AddrSpace) (t : Sections) (x : Patch) : Prop :=
  ∃ seg, SectionMemory space t x.target seg ∧ ∀ b < relocSize x.type,
    ∃ i, i < seg.len ∧ i < (t.hdr x.target).size ∧ x.addr + b = u64 (seg.base + i)

/-- Every store of the relocations lies in the memory that was mapped for its section: there is none
for a section that was not loaded, or at an offset outside of the section. -/
def StoresInside (r : Loaded) : Prop :=
  ∀ x ∈ r.patches, x.Inside r.kernel.space r.tables.sections

/-- The entry is for a section that is loaded, and its field lies in it. -/
def EntryInside (t : Sections) (target : ℕ) (rela : Rela) : Prop :=
  IsLoaded (t.hdr target) ∧ ∀ type ∈ rela.type?,
    rela.offset + relocSize type ≤ (t.hdr target).size ∧
      rela.offset + relocSize type ≤ mappedLen (t.hdr target)

instance (t : Sections) (target : ℕ) (rela : Rela) : Decidable (EntryInside t target rela) :=
  inferInstanceAs (Decidable (_ ∧ _))

def relaEntries (file : Vfs.Vnode) (junk : Junk) (t : Sections) (i : ℕ) : ℕ → UInt8 :=
  Bytes.put (junk.rela i) 0 (file.read (t.hdr i).offset (t.hdr i).size).2

/-- All entries of the relocation sections are for sections that are loaded, and lie in them. -/
def EntriesInside (file : Vfs.Vnode) (junk : Junk) (t : Sections) (shnum : ℕ) : Prop :=
  ∀ i < shnum, (t.hdr i).type = shtRela → ∀ j < (t.hdr i).size / (t.hdr i).entsize,
    EntryInside t (t.hdr i).info (Rela.decode (relaEntries file junk t i) (j * sizeofRela))

instance (file : Vfs.Vnode) (junk : Junk) (t : Sections) (shnum : ℕ) :
    Decidable (EntriesInside file junk t shnum) :=
  inferInstanceAs (Decidable (∀ i < shnum, _ → _))

theorem mappedLen_le (sec : Shdr) : mappedLen sec ≤ 2 ^ 64 - archPageGran := by
  unfold mappedLen ceilTo u64 archPageGran
  omega

theorem field_inside_iff {base offset width len size : ℕ} (hoff : offset < 2 ^ 64)
    (hwidth : 0 < width ∧ width ≤ archPageGran) (hlen : len ≤ 2 ^ 64 - archPageGran)
    (hfit : u64 (base + offset) + width ≤ 2 ^ 64) :
    (∀ b < width, ∃ i, i < len ∧ i < size ∧ u64 (base + offset) + b = u64 (base + i)) ↔
      offset + width ≤ size ∧ offset + width ≤ len := by
  unfold u64 archPageGran at *
  constructor
  · intro h
    obtain ⟨i, hi, -, hfirst⟩ := h 0 hwidth.1
    obtain ⟨j, hj, hjs, hlast⟩ := h (width - 1) (by omega)
    omega
  · rintro ⟨hs, hl⟩ b hb
    exact ⟨offset + b, by omega, by omega, by omega⟩

theorem relocate_field {t : Tables} {symtab mem : ℕ → UInt8} {target : ℕ} {rela : Rela} {x : Patch}
    (h : relocate t symtab target rela mem = .ok x) :
    x.target = target ∧ target < t.shnum ∧ rela.type? = some x.type ∧
      x.addr = u64 (t.sections.addr target + rela.offset) ∧
        x.addr + relocSize x.type ≤ 2 ^ 64 := by
  unfold relocate at h
  obtain ⟨sym, -, h⟩ := bind_eq_ok.mp h
  obtain ⟨_, htarget, h⟩ := bind_eq_ok.mp h
  obtain ⟨type, htype, h⟩ := bind_eq_ok.mp h
  obtain ⟨_, hfit, h⟩ := bind_eq_ok.mp h
  cases h
  refine ⟨rfl, check_eq_ok.mp htarget, ?_, rfl, check_eq_ok.mp hfit⟩
  cases hrela : rela.type? with
  | none =>
    rw [hrela] at htype
    cases htype
  | some type' =>
    rw [hrela] at htype
    cases htype
    rfl

section Loops

variable {space : Vmm.AddrSpace} {t : Tables}
  (hmem : ∀ i < t.shnum, IsLoaded (t.sections.hdr i) → ∃ seg, SectionMemory space t.sections i seg)
include hmem

theorem relocate_inside_iff {symtab entries mem : ℕ → UInt8} {target j : ℕ} {x : Patch}
    (h : relocate t symtab target (Rela.decode entries (j * sizeofRela)) mem = .ok x) :
    x.Inside space t.sections ↔
      EntryInside t.sections target (Rela.decode entries (j * sizeofRela)) := by
  obtain ⟨rfl, htarget, htype, haddr, hfit⟩ := relocate_field h
  generalize hrela : Rela.decode entries (j * sizeofRela) = rela at *
  have hoff : rela.offset < 2 ^ 64 := hrela ▸ Bytes.le_lt _ _ _
  have hwidth : 0 < relocSize x.type ∧ relocSize x.type ≤ archPageGran := by
    cases x.type <;> decide
  have hfield := @field_inside_iff (t.sections.addr x.target) rela.offset (relocSize x.type)
    (mappedLen (t.sections.hdr x.target)) (t.sections.hdr x.target).size hoff hwidth
    (mappedLen_le _) (haddr ▸ hfit)
  rw [← haddr] at hfield
  constructor
  · rintro ⟨seg, hseg, hbytes⟩
    rw [hseg.base, hseg.len] at hbytes
    refine ⟨hseg.loaded, fun type htype' => ?_⟩
    obtain rfl := Option.mem_unique htype htype'
    exact hfield.mp hbytes
  · rintro ⟨hloaded, hends⟩
    obtain ⟨seg, hseg⟩ := hmem x.target htarget hloaded
    refine ⟨seg, hseg, ?_⟩
    rw [hseg.base, hseg.len]
    exact hfield.mpr (hends x.type htype)

theorem relaRound_inside_iff {symtab entries : ℕ → UInt8} {target j : ℕ} {x y : Relocated}
    (h : relaRound t symtab target entries x j = .ok y) :
    (∀ p ∈ y.2, p.Inside space t.sections) ↔ (∀ p ∈ x.2, p.Inside space t.sections) ∧
      EntryInside t.sections target (Rela.decode entries (j * sizeofRela)) := by
  obtain ⟨new, hnew, h⟩ := bind_eq_ok.mp h
  cases h
  rw [List.forall_mem_append, List.forall_mem_singleton, relocate_inside_iff hmem hnew]

theorem relocRound_inside_iff {file : Vfs.Vnode} {junk : Junk} {symtab : ℕ → UInt8}
    {x y : Relocated} {i : ℕ} (h : relocRound file junk t symtab x i = .ok y) :
    (∀ p ∈ y.2, p.Inside space t.sections) ↔ (∀ p ∈ x.2, p.Inside space t.sections) ∧
      ((t.sections.hdr i).type = shtRela →
        ∀ j < (t.sections.hdr i).size / (t.sections.hdr i).entsize,
          EntryInside t.sections (t.sections.hdr i).info
            (Rela.decode (relaEntries file junk t.sections i) (j * sizeofRela))) := by
  by_cases htype : (t.sections.hdr i).type ≠ shtRela
  · simp only [relocRound, if_pos htype] at h
    cases h
    exact (and_iff_left fun he => absurd he htype).symm
  · simp only [relocRound, if_neg htype] at h
    obtain ⟨_, -, h⟩ := bind_eq_ok.mp h
    obtain ⟨_, -, h⟩ := bind_eq_ok.mp h
    rw [foldlM_iff (fun _ _ _ hr => relaRound_inside_iff hmem hr) h]
    simp only [List.mem_range, not_not.mp htype, forall_const]
    rfl

end Loops

/-- In a module that is loaded, all stores of the relocations lie in the memory of their sections
exactly if all entries of the relocation sections are for loaded sections and lie in them. -/
theorem stores_inside_iff {ksyms : List UInt8} {junk : Junk} {k : Kernel} {file : Vfs.Vnode}
    {r : Loaded} (h : moduleLoad ksyms junk k file = .ok r) :
    StoresInside r ↔ EntriesInside file junk r.tables.sections r.tables.shnum := by
  obtain ⟨ehdr, k', symtab, hphases⟩ := moduleLoad_phases h
  have hmem := hphases.sectionMemory
  have hiff := foldlM_iff (fun _ _ _ hr => relocRound_inside_iff hmem hr) hphases.relocs
  unfold StoresInside EntriesInside
  rw [hiff, and_iff_right fun x hx => absurd hx List.not_mem_nil]
  simp only [List.mem_range]

/-- The one relocation of the sample is for its code. -/
theorem stores_inside_iff_sample :
    ∃ r, moduleLoad sampleKsyms noJunk sampleKernel (sampleFile 1) = .ok r ∧ r.patches ≠ [] ∧
      StoresInside r := by
  obtain ⟨r, hr, hne, hin⟩ : ∃ r ∈ (moduleLoad sampleKsyms noJunk sampleKernel (sampleFile 1)).toOption,
      r.patches.isEmpty = false ∧ EntriesInside (sampleFile 1) noJunk r.tables.sections r.tables.shnum := by
    decide +kernel
  have hload := toOption_eq_some.mp hr
  exact ⟨r, hload, List.isEmpty_eq_false_iff.mp hne, (stores_inside_iff hload).mpr hin⟩

def fileOf (bytes : List UInt8) : Vfs.Vnode where
  read offset count := (eok, (bytes.drop offset).take count)
  cached := false
  length_read _ count := List.length_take_le count _

/-- The sample with its relocation section for section 3, which is not allocated. -/
def strayFile : Vfs.Vnode := fileOf ((sampleBytes 1).set 529 3)

/-- The object that `heap_alloc` returns for `section_addr` was in use before. -/
def usedJunk : Junk := { noJunk with sectionAddr := fun _ => 0xFFFF800000100000 }

/-- The relocation of a section that is not allocated is stored at the address that the heap object held,
here one of the kernel's direct mapping. -/
theorem stray_relocation_stored :
    ∃ r x, moduleLoad sampleKsyms usedJunk sampleKernel strayFile = .ok r ∧ x ∈ r.patches ∧
      ¬ IsLoaded (r.tables.sections.hdr x.target) ∧ x.addr = 0xFFFF800000100000 ∧ ¬ StoresInside r := by
  obtain ⟨r, hr, x, hmem, hnot, haddr⟩ :
      ∃ r ∈ (moduleLoad sampleKsyms usedJunk sampleKernel strayFile).toOption, ∃ x ∈ r.patches,
        ¬ IsLoaded (r.tables.sections.hdr x.target) ∧ x.addr = 0xFFFF800000100000 := by decide +kernel
  refine ⟨r, x, toOption_eq_some.mp hr, hmem, hnot, haddr, fun hin => ?_⟩
  obtain ⟨seg, hseg, -⟩ := hin x hmem
  exact hnot hseg.loaded

end LykOS.Module
