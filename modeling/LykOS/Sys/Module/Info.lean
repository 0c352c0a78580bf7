import LykOS.Sys.Module.Stores
import Mathlib.Data.Fintype.Card

/-!
# Entry points of a module

The loop over the symbols writes a field of `module_t` whenever it comes to a symbol of a section with
the name of the field, so a field holds the address of the last such symbol. The structure is not
cleared before the loop: a field without a symbol keeps what the stack held, and the test for
`__module_install` and `__module_destroy` afterwards sees that value.
-/

namespace LykOS.Module

open Elf List

/-- The fields of `module_t`. -/
inductive Field
  | install
  | destroy
  | name
  | version
  | description
  | author
  deriving DecidableEq, Repr

instance : Fintype Field :=
  ⟨{.install, .destroy, .name, .version, .description, .author}, fun f => by cases f <;> decide⟩

def Mod.get (m : Mod) : Field → ℕ
  | .install => m.install
  | .destroy => m.destroy
  | .name => m.name
  | .version => m.version
  | .description => m.description
  | .author => m.author

def Field.symbol : Field → List UInt8
  | .install => modinfoName ['i', 'n', 's', 't', 'a', 'l', 'l']
  | .destroy => modinfoName ['d', 'e', 's', 't', 'r', 'o', 'y']
  | .name => modinfoName ['n', 'a', 'm', 'e']
  | .version => modinfoName ['v', 'e', 'r', 's', 'i', 'o', 'n']
  | .description => modinfoName ['d', 'e', 's', 'c', 'r', 'i', 'p', 't', 'i', 'o', 'n']
  | .author => modinfoName ['a', 'u', 't', 'h', 'o', 'r']

theorem moduleFetchModinfo_get (m : Mod) (name : CStr) (value : ℕ) (field : Field) :
    (moduleFetchModinfo m name value).get field =
      if name.chars = field.symbol then value else m.get field := by
  unfold moduleFetchModinfo
  by_cases hname : ∃ other : Field, name.chars = other.symbol
  · obtain ⟨other, hother⟩ := hname
    rw [hother]
    cases other <;> cases field <;> rfl
  · rw [not_exists] at hname
    rw [if_neg (hname field)]
    split_ifs with h₁ h₂ h₃ h₄ h₅ h₆
    · exact absurd h₁ (hname .install)
    · exact absurd h₂ (hname .destroy)
    · exact absurd h₃ (hname .name)
    · exact absurd h₄ (hname .version)
    · exact absurd h₅ (hname .description)
    · exact absurd h₆ (hname .author)
    · rfl

/-! ## The symbols of the file -/

/-- The symbol with index `i`, if it belongs to a section and has the name of the field. -/
def Tables.definedAt (t : Tables) (symtab : ℕ → UInt8) (field : Field) (i : ℕ) : Option Sym := do
  let sym ← t.sym symtab i symToValue
  let name ← cstrAt t.strtab t.strtabSize sym.name
  if InSection sym ∧ name.chars = field.symbol then some sym else none

def Tables.indices (t : Tables) : List ℕ := List.range' 1 (t.count - 1)

/-- The last symbol of the file that defines the field. -/
def Tables.lastDefined (t : Tables) (field : Field) : Option Sym :=
  (t.indices.filterMap (t.definedAt t.symtab field)).getLast?

/-- What a round knows of its symbol when it goes on: an undefined one is resolved, and one of a
section names a section of the file. -/
structure Accepted (ksyms : List UInt8) (t : Tables) (sym : Sym) : Prop where
  resolved : sym.shndx = shnUndef → ∃ v, symbolAddr ksyms t sym = some v ∧ v ≠ 0
  inFile : InSection sym → sym.shndx < t.shnum

variable {t : Tables} {i : ℕ} {symtab : ℕ → UInt8} {sym : Sym}

theorem definedAt_eq_some {field : Field} :
    t.definedAt symtab field i = some sym ↔ t.sym symtab i symToValue = some sym ∧ InSection sym ∧
      ∃ name, cstrAt t.strtab t.strtabSize sym.name = some name ∧ name.chars = field.symbol := by
  unfold Tables.definedAt
  constructor
  · intro h
    obtain ⟨sym', hsym, h⟩ := Option.bind_eq_some_iff.mp h
    obtain ⟨name, hname, h⟩ := Option.bind_eq_some_iff.mp h
    split_ifs at h with hcond
    cases h
    exact ⟨hsym, hcond.1, name, hname, hcond.2⟩
  · rintro ⟨hsym, hin, name, hname, hchars⟩
    simp only [hsym, hname, Option.bind_eq_bind, Option.bind_some, if_pos (And.intro hin hchars)]

theorem definedAt_of_not_inSection {n : ℕ} (hsym : t.sym symtab i n = some sym)
    (hin : ¬ InSection sym) (field : Field) : t.definedAt symtab field i = none := by
  rw [Option.eq_none_iff_forall_ne_some]
  intro sym' h
  obtain ⟨hsym', hin', -⟩ := definedAt_eq_some.mp h
  rw [sym_eq_some hsym', ← sym_eq_some hsym] at hin'
  exact hin hin'

theorem definedAt_of_inSection {name : CStr} (hsym : t.sym symtab i symToValue = some sym)
    (hin : InSection sym) (hname : cstrAt t.strtab t.strtabSize sym.name = some name) (field : Field) :
    t.definedAt symtab field i = if name.chars = field.symbol then some sym else none := by
  simp only [Tables.definedAt, hsym, hname, Option.bind_eq_bind, Option.bind_some, hin, true_and]

theorem resolveRound_info {ksyms : List UInt8} {x y : (ℕ → UInt8) × Mod}
    (h : resolveRound ksyms t x i = .ok y) :
    (∃ sym, t.sym x.1 i symToShndx = some sym ∧ Accepted ksyms t sym) ∧
      ∀ field, y.2.get field = ((t.definedAt x.1 field i).map t.addrOf).getD (x.2.get field) := by
  obtain ⟨sym, hsym, ⟨hundef, value, hne, haddr, rfl⟩ | ⟨hundef, habs, -, rfl⟩ |
    ⟨hin, hlt, hwhole, -, name, hname, rfl⟩⟩ := resolveRound_cases h
  · have hin : ¬ InSection sym := fun hin => hin.1 hundef
    have hvalue : value.toNat ≠ 0 := fun h0 => hne (UInt64.toNat_inj.mp h0)
    refine ⟨⟨sym, hsym, fun _ => ⟨_, haddr, hvalue⟩, fun h => absurd h hin⟩, fun field => ?_⟩
    rw [definedAt_of_not_inSection hsym hin]
    rfl
  · have hin : ¬ InSection sym := fun hin => hin.2 habs
    refine ⟨⟨sym, hsym, fun h => absurd h hundef, fun h => absurd h hin⟩, fun field => ?_⟩
    rw [definedAt_of_not_inSection hsym hin]
    rfl
  · refine ⟨⟨sym, hsym, fun h => absurd h hin.1, fun _ => hlt⟩, fun field => ?_⟩
    rw [definedAt_of_inSection hwhole hin hname, moduleFetchModinfo_get]
    split_ifs
    · rfl
    · rfl

theorem resolve_info {ksyms : List UInt8} (ht : t.Separate) :
    ∀ {l : List ℕ} {x y : (ℕ → UInt8) × Mod}, l.Nodup → (∀ i ∈ l, i < t.count) →
      l.foldlM (resolveRound ksyms t) x = .ok y →
      (∀ i ∈ l, ∃ sym, t.sym x.1 i symToShndx = some sym ∧ Accepted ksyms t sym) ∧
        ∀ field, y.2.get field =
          ((l.filterMap (t.definedAt x.1 field)).getLast?.map t.addrOf).getD (x.2.get field) := by
  intro l
  induction l with
  | nil =>
    intro x y _ _ h
    cases h
    exact ⟨fun i hi => absurd hi not_mem_nil, fun _ => rfl⟩
  | cons a l ih =>
    intro x y hnd hlt h
    rw [foldlM_cons] at h
    obtain ⟨z, hz, h⟩ := bind_eq_ok.mp h
    obtain ⟨hal, hnd⟩ := nodup_cons.mp hnd
    obtain ⟨ha, hlt⟩ := forall_mem_cons.mp hlt
    have hsym : ∀ i ∈ l, ∀ n, t.sym z.1 i n = t.sym x.1 i n := fun i hi =>
      resolveRound_sym ht ha hz (hlt i hi) fun e => hal (e ▸ hi)
    obtain ⟨hself, hfield⟩ := resolveRound_info hz
    obtain ⟨hin, hrest⟩ := ih hnd hlt h
    refine ⟨fun i hi => ?_, fun field => ?_⟩
    · rcases mem_cons.mp hi with rfl | hi
      · exact hself
      · simp only [← hsym i hi]
        exact hin i hi
    · have hcongr : l.filterMap (t.definedAt z.1 field) = l.filterMap (t.definedAt x.1 field) := by
        apply filterMap_congr
        intro i hi
        rw [Tables.definedAt, hsym i hi]
        rfl
      rw [hrest field, hcongr, hfield field]
      cases hdef : t.definedAt x.1 field a with
      | none =>
        rw [filterMap_cons_none hdef]
        rfl
      | some sym =>
        rw [filterMap_cons_some hdef, getLast?_cons]
        cases (l.filterMap (t.definedAt x.1 field)).getLast? <;> rfl

/-! ## What `module_load` returns -/

/-- The field holds the address of the last symbol that defines it, in the memory of the section of
that symbol, or it is null and there is no such symbol. -/
def FieldRight (r : Loaded) (field : Field) : Prop :=
  match r.tables.lastDefined field with
  | some sym => ∃ seg, SectionMemory r.kernel.space r.tables.sections sym.shndx seg ∧
      r.module.get field = u64 (sym.value + seg.base)
  | none => r.module.get field = 0

/-- A module that is returned has its two functions, its fields are right, and all undefined symbols of
the file are resolved. -/
structure InfoRight (ksyms : List UInt8) (r : Loaded) : Prop where
  install : (r.tables.lastDefined .install).isSome
  destroy : (r.tables.lastDefined .destroy).isSome
  fields : ∀ field, FieldRight r field
  resolved : ∀ i ∈ r.tables.indices, ∀ sym, r.tables.sym r.tables.symtab i symToShndx = some sym →
    sym.shndx = shnUndef → ∃ v, symbolAddr ksyms r.tables sym = some v ∧ v ≠ 0

/-- The symbol of the field is in a section that is loaded, or there is none and the stack held
zero. -/
def FieldSound (junk : Junk) (t : Tables) (field : Field) : Prop :=
  (∀ sym ∈ t.lastDefined field, IsLoaded (t.sections.hdr sym.shndx)) ∧
    (t.lastDefined field = none → junk.module.get field = 0)

instance (junk : Junk) (t : Tables) (field : Field) : Decidable (FieldSound junk t field) :=
  inferInstanceAs (Decidable (_ ∧ _))

theorem FieldRight.isSome {r : Loaded} {field : Field} (h : FieldRight r field)
    (hne : r.module.get field ≠ 0) : (r.tables.lastDefined field).isSome := by
  unfold FieldRight at h
  cases hlast : r.tables.lastDefined field with
  | none =>
    rw [hlast] at h
    exact absurd h hne
  | some sym => rfl

section Returned

variable {ksyms : List UInt8} {junk : Junk} {k k' : Kernel} {file : Vfs.Vnode} {r : Loaded} {ehdr : Ehdr}
  {symtab : ℕ → UInt8}

theorem indices_lt {i : ℕ} (hi : i ∈ t.indices) : i < t.count := by
  rw [Tables.indices, mem_range'_1] at hi
  omega

theorem Phases.accepted (h : Phases ksyms junk k file r ehdr k' symtab)
    (he : symToValue ≤ r.tables.symtabHdr.entsize) {i n : ℕ} (hi : i ∈ r.tables.indices) {sym : Sym}
    (hsym : r.tables.sym r.tables.symtab i n = some sym) : Accepted ksyms r.tables sym := by
  obtain ⟨sym', hsym', hacc⟩ :=
    (resolve_info ⟨he, h.small⟩ nodup_range' (fun _ => indices_lt) h.symbols).1 i hi
  rw [sym_eq_some hsym, ← sym_eq_some hsym']
  exact hacc

theorem Phases.get_module (h : Phases ksyms junk k file r ehdr k' symtab)
    (he : symToValue ≤ r.tables.symtabHdr.entsize) (field : Field) : r.module.get field =
      ((r.tables.lastDefined field).map r.tables.addrOf).getD (junk.module.get field) :=
  (resolve_info ⟨he, h.small⟩ nodup_range' (fun _ => indices_lt) h.symbols).2 field

theorem Phases.fieldRight_iff (h : Phases ksyms junk k file r ehdr k' symtab)
    (he : symToValue ≤ r.tables.symtabHdr.entsize) (field : Field) :
    FieldRight r field ↔ FieldSound junk r.tables field := by
  have hvalue := h.get_module he field
  unfold FieldRight FieldSound
  cases hlast : r.tables.lastDefined field with
  | none =>
    rw [hlast] at hvalue
    simp [hvalue]
  | some sym =>
    rw [hlast] at hvalue
    simp only [Option.mem_some_iff, forall_eq', reduceCtorEq, false_imp_iff, and_true]
    constructor
    · rintro ⟨seg, hseg, -⟩
      exact hseg.loaded
    · intro hloaded
      obtain ⟨i, hi, hdef⟩ := mem_filterMap.mp (mem_of_getLast? hlast)
      obtain ⟨hsym, hin, -⟩ := definedAt_eq_some.mp hdef
      obtain ⟨seg, hseg⟩ := h.sectionMemory _ ((h.accepted he hi hsym).inFile hin) hloaded
      refine ⟨seg, hseg, ?_⟩
      rw [hvalue, hseg.base]
      rfl

/-- In a module that is loaded from a file whose symbols do not overlap, the entry points are right exactly
if every field has its symbol in a loaded section, or no symbol and a zero on the stack. -/
theorem module_info_iff (h : moduleLoad ksyms junk k file = .ok r)
    (he : symToValue ≤ r.tables.symtabHdr.entsize) :
    InfoRight ksyms r ↔ ∀ field, FieldSound junk r.tables field := by
  obtain ⟨ehdr, k', symtab, hphases⟩ := moduleLoad_phases h
  have hfield := hphases.fieldRight_iff he
  constructor
  · exact fun hright field => (hfield field).mp (hright.fields field)
  · intro hsound
    have hright : ∀ field, FieldRight r field := fun field => (hfield field).mpr (hsound field)
    obtain ⟨hinstall, hdestroy⟩ := hphases.required
    exact ⟨(hright .install).isSome hinstall, (hright .destroy).isSome hdestroy, hright,
      fun i hi sym hsym => (hphases.accepted he hi hsym).resolved⟩

end Returned

/-- The sample has its two functions, and the stack held zeros. -/
theorem module_info_iff_sample :
    ∃ r, moduleLoad sampleKsyms noJunk sampleKernel (sampleFile 1) = .ok r ∧
      InfoRight sampleKsyms r := by
  obtain ⟨r, hr, he, hsound⟩ :
      ∃ r ∈ (moduleLoad sampleKsyms noJunk sampleKernel (sampleFile 1)).toOption,
        symToValue ≤ r.tables.symtabHdr.entsize ∧ ∀ field, FieldSound noJunk r.tables field := by
    decide +kernel
  have hload := toOption_eq_some.mp hr
  exact ⟨r, hload, (module_info_iff hload he).mpr hsound⟩

/-- The sample with an empty name in place of `__module_install`. -/
def namelessFile : Vfs.Vnode := fileOf ((sampleBytes 1).set 171 0)

def staleJunk : Junk := { noJunk with module := ⟨0x1234, 0, 0, 0, 0, 0⟩ }

/-- Without `__module_install` the loader returns a module whose `install` is what the stack held. -/
theorem stale_install_returned :
    ∃ r, moduleLoad sampleKsyms staleJunk sampleKernel namelessFile = .ok r ∧
      r.tables.lastDefined .install = none ∧ r.module.install = 0x1234 ∧
        ¬ InfoRight sampleKsyms r := by
  obtain ⟨r, hr, hnone, hinstall⟩ :
      ∃ r ∈ (moduleLoad sampleKsyms staleJunk sampleKernel namelessFile).toOption,
        r.tables.lastDefined .install = none ∧ r.module.install = 0x1234 := by decide +kernel
  refine ⟨r, toOption_eq_some.mp hr, hnone, hinstall, fun hright => ?_⟩
  have hsome := hright.install
  rw [hnone] at hsome
  cases hsome

end LykOS.Module
