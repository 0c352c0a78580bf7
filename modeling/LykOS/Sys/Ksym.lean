import LykOS.Lib.Bytes
import LykOS.Lib.CString

/-!
# Kernel symbols

`tools/ksym.c` writes a file of packed records, each an address of eight bytes and a name with its
NUL, and `sys/ksym.c` looks a name up in that file by walking from record to record. The lookup is a
walk over raw bytes and has no result where it leaves the file. On a file the tool wrote it starts
every round at a record (`ksymLoop_image`), so it finds what a search in the list of symbols finds.
-/

namespace LykOS.Ksym

open CStr
open List hiding min

/-! ## The tool -/

/-- What one `fscanf(in, "%llx %c %s", ..)` reads. -/
structure Line where
  addr : UInt64
  type : UInt8
  name : List UInt8
  deriving DecidableEq, Repr

/-- The bytes that are written for one line: `name` is a buffer of 256 bytes, which a longer name
overflows. -/
def writeLine (x : Line) : Option (List UInt8) :=
  if x.name.length < 256 then
    some (Bytes.ofNat 8 x.addr.toNat ++ (x.name.takeWhile (· ≠ 0) ++ [0]))
  else none

/-- The loop of `main`; `out` is what the output file holds already. -/
def ksymMain (out : List UInt8) (lines : List Line) : Option (List UInt8) :=
  lines.foldlM (fun out x => (writeLine x).map (out ++ ·)) out

/-! ## The lookup -/

/-- The loop of `ksym_resolve_symbol` from the pointer `p` on, for `fuel` rounds at most: the address it
returns, and the values of `p` in its rounds. -/
def ksymLoop (img : List UInt8) (name : CStr) : ℕ → ℕ → Option (UInt64 × List ℕ)
  | 0, _ => none
  | fuel + 1, p =>
    if p < img.length then do
      let cmp ← memStrcmp name.chars (img.drop (p + 8))
      if cmp = 0 then do
        let addr ← Bytes.read img p 8
        return (UInt64.ofNat (Bytes.toNat addr), [p])
      else do
        let len ← memStrlen (img.drop (p + 8))
        let (addr, ps) ← ksymLoop img name fuel (p + 8 + len + 1)
        return (addr, p :: ps)
    else return (0, [])

/-- A round advances by nine bytes at least. -/
def ksymScan (img : List UInt8) (name : CStr) : Option (UInt64 × List ℕ) :=
  ksymLoop img name (img.length + 1) 0

def ksymResolveSymbol (img : List UInt8) (name : CStr) : Option UInt64 :=
  (ksymScan img name).map Prod.fst

/-! ## Symbols -/

def isSpace (c : UInt8) : Bool := c == 32 || (9 ≤ c && c ≤ 13)

/-- A symbol whose name `fscanf` reads in one piece and `name` can hold. -/
structure Symbol where
  addr : UInt64
  name : CStr
  nonempty : name.chars ≠ []
  short : name.chars.length < 256
  no_space : name.chars.any isSpace = false

namespace Symbol

def record (x : Symbol) : List UInt8 := Bytes.ofNat 8 x.addr.toNat ++ (x.name.chars ++ [0])

/-- The line of the input that gives the symbol, with any type letter. -/
def line (x : Symbol) (type : UInt8) : Line := ⟨x.addr, type, x.name.chars⟩

theorem length_record (x : Symbol) : x.record.length = 8 + x.name.chars.length + 1 := by
  simp only [record, length_append, Bytes.length_ofNat, length_singleton]
  omega

theorem writeLine_line (x : Symbol) (type : UInt8) : writeLine (x.line type) = some x.record := by
  have hname : x.name.chars.takeWhile (· ≠ 0) = x.name.chars :=
    takeWhile_eq_self_iff.mpr fun c hc => by simpa using x.name.no_nul c hc
  simp only [writeLine, line, if_pos x.short, hname, record]

end Symbol

def image (l : List Symbol) : List UInt8 := l.flatMap Symbol.record

def offset (l : List Symbol) (i : ℕ) : ℕ := (image (l.take i)).length

theorem ksymMain_lines (types : List UInt8) : ∀ (l : List Symbol) (out : List UInt8),
    types.length = l.length →
      ksymMain out (List.zipWith Symbol.line l types) = some (out ++ image l) := by
  induction types with
  | nil =>
    intro l out h
    obtain rfl := length_eq_zero_iff.mp h.symm
    rw [image, flatMap_nil, List.append_nil]
    rfl
  | cons t types ih =>
    intro l out h
    cases l with
    | nil => cases h
    | cons x l =>
      have hrest := ih l (out ++ x.record) (Nat.succ.inj h)
      rw [ksymMain] at hrest ⊢
      rw [zipWith_cons_cons, foldlM_cons, x.writeLine_line t]
      simp only [Option.map_some, Option.bind_eq_bind, Option.bind_some, hrest, image,
        flatMap_cons, append_assoc]

/-! ## The walk -/

section Walk

variable (name : CStr) (x : Symbol) (pre post : List UInt8)

theorem drop_record : (pre ++ (x.record ++ post)).drop (pre.length + 8) =
    x.name.chars ++ 0 :: post := by
  rw [drop_length_add_append, Symbol.record, append_assoc,
    drop_left' (Bytes.length_ofNat 8 _), append_assoc, singleton_append]

theorem read_addr : Bytes.read (pre ++ (x.record ++ post)) pre.length 8 =
    some (Bytes.ofNat 8 x.addr.toNat) := by
  have h := Bytes.read_append pre (Bytes.ofNat 8 x.addr.toNat) ((x.name.chars ++ [0]) ++ post)
  rwa [Bytes.length_ofNat, ← append_assoc (Bytes.ofNat 8 x.addr.toNat)] at h

theorem addr_eq : UInt64.ofNat (Bytes.toNat (Bytes.ofNat 8 x.addr.toNat)) = x.addr := by
  rw [Bytes.toNat_ofNat, Nat.mod_eq_of_lt (by exact x.addr.toNat_lt), UInt64.ofNat_toNat]

theorem ksymLoop_found (fuel : ℕ) (h : x.name = name) :
    ksymLoop (pre ++ (x.record ++ post)) name (fuel + 1) pre.length =
      some (x.addr, [pre.length]) := by
  have hlt : pre.length < (pre ++ (x.record ++ post)).length := by
    simp only [length_append, x.length_record]
    omega
  have hcmp : memStrcmp name.chars (x.name.chars ++ 0 :: post) = some 0 := by
    rw [memStrcmp_append name.no_nul, h, (strcmp_eq_zero name.no_nul name.no_nul).mpr rfl]
  rw [ksymLoop, if_pos hlt, drop_record, hcmp, read_addr]
  simp only [Option.bind_eq_bind, Option.bind_some, if_true, addr_eq, Option.pure_def]

theorem ksymLoop_next (fuel : ℕ) (h : x.name ≠ name) :
    ksymLoop (pre ++ (x.record ++ post)) name (fuel + 1) pre.length =
      (ksymLoop ((pre ++ x.record) ++ post) name fuel (pre ++ x.record).length).map
        fun r => (r.1, pre.length :: r.2) := by
  have hlt : pre.length < (pre ++ (x.record ++ post)).length := by
    simp only [length_append, x.length_record]
    omega
  have hcmp : strcmp name.chars x.name.chars ≠ 0 := fun e =>
    h (CStr.chars_inj ((strcmp_eq_zero name.no_nul x.name.no_nul).mp e).symm)
  have hnext : pre.length + 8 + x.name.chars.length + 1 = (pre ++ x.record).length := by
    rw [length_append, x.length_record]
    omega
  rw [ksymLoop, if_pos hlt, drop_record, memStrcmp_append name.no_nul, memStrlen_append x.name.no_nul]
  simp only [Option.bind_eq_bind, Option.bind_some, if_neg hcmp, hnext, append_assoc]
  cases ksymLoop (pre ++ (x.record ++ post)) name fuel (pre ++ x.record).length <;> rfl

end Walk

theorem ksymLoop_image (name : CStr) : ∀ (l : List Symbol) (pre : List UInt8) (fuel : ℕ),
    l.length < fuel → ksymLoop (pre ++ image l) name fuel pre.length =
      some (((l.find? (·.name = name)).map Symbol.addr).getD 0,
        (List.range (min (l.findIdx (·.name = name) + 1) l.length)).map
          fun i => pre.length + offset l i) := by
  intro l
  induction l with
  | nil =>
    intro pre fuel h
    obtain ⟨fuel, rfl⟩ : ∃ k, fuel = k + 1 := ⟨fuel - 1, by rw [length_nil] at h; omega⟩
    rw [ksymLoop, if_neg (by simp [image])]
    rfl
  | cons x l ih =>
    intro pre fuel h
    obtain ⟨fuel, rfl⟩ : ∃ k, fuel = k + 1 := ⟨fuel - 1, by omega⟩
    rw [length_cons] at h
    rw [image, flatMap_cons]
    by_cases hx : x.name = name
    · rw [ksymLoop_found name x pre _ fuel hx, find?_cons_of_pos (by simpa using hx), findIdx_cons]
      simp [hx, offset, image]
    · -- the records of the rest start behind that of `x`
      have hoff : ∀ i, pre.length + offset (x :: l) (i + 1) =
          (pre ++ x.record).length + offset l i := by
        intro i
        simp only [offset, image, take_succ_cons, flatMap_cons, length_append]
        omega
      have hfind : (x :: l).findIdx (·.name = name) = l.findIdx (·.name = name) + 1 := by
        rw [findIdx_cons]
        simp [hx]
      have hrest := ih (pre ++ x.record) fuel (by omega)
      rw [image] at hrest
      rw [ksymLoop_next name x pre _ fuel hx, hrest,
        find?_cons_of_neg (by simpa using hx), hfind, length_cons, Nat.succ_min_succ,
        range_succ_eq_map, map_cons, List.map_map]
      simp only [Option.map_some, Function.comp_def, Nat.succ_eq_add_one, hoff]
      simp [offset, image]

theorem length_le_image (l : List Symbol) : l.length ≤ (image l).length := by
  induction l with
  | nil => exact Nat.zero_le _
  | cons x l ih =>
    have := x.length_record
    rw [image] at ih
    rw [image, flatMap_cons, length_append, length_cons]
    omega

theorem image_record (l : List Symbol) (i : ℕ) (hi : i < l.length) :
    ((image l).drop (offset l i)).take l[i].record.length = l[i].record := by
  have hsplit : image l = image (l.take i) ++ (l[i].record ++ image (l.drop (i + 1))) := by
    simp only [image]
    rw [← flatMap_cons, ← flatMap_append, getElem_cons_drop hi, take_append_drop]
  rw [hsplit, offset, drop_left, take_left]

/-- On the file the tool writes for a list of symbols, the lookup of a name returns the address of the
first symbol with that name, or 0; it reads nothing outside the file, and its rounds are at the records
up to that of this symbol. -/
theorem ksym_round_trip (l : List Symbol) (types : List UInt8) (ht : types.length = l.length)
    (name : CStr) :
    ∃ img, ksymMain [] (List.zipWith Symbol.line l types) = some img ∧
      ksymResolveSymbol img name = some (((l.find? (·.name = name)).map Symbol.addr).getD 0) ∧
        (ksymScan img name).map Prod.snd = some
          ((List.range (min (l.findIdx (·.name = name) + 1) l.length)).map (offset l)) ∧
          ∀ i (hi : i < l.length), (img.drop (offset l i)).take l[i].record.length = l[i].record := by
  have hscan : ksymScan (image l) name = some (((l.find? (·.name = name)).map Symbol.addr).getD 0,
      (List.range (min (l.findIdx (·.name = name) + 1) l.length)).map (offset l)) := by
    have h := ksymLoop_image name l [] ((image l).length + 1) (Nat.lt_succ_of_le (length_le_image l))
    simp only [nil_append, length_nil, Nat.zero_add] at h
    exact h
  refine ⟨image l, ksymMain_lines types l [] ht, ?_, ?_, image_record l⟩
  · rw [ksymResolveSymbol, hscan, Option.map_some]
  · rw [hscan, Option.map_some]

/-- Two symbols, the first with zero bytes and the bytes of a name in its address. -/
def symA : Symbol where
  addr := 0x6100620000000061
  name := CStr.ofList [97] (Eq.refl true)
  nonempty := by decide
  short := by decide
  no_space := rfl

def symB : Symbol where
  addr := 0xFFFFFFFF80000000
  name := CStr.ofList [98, 97] rfl
  nonempty := by decide
  short := by decide
  no_space := rfl

theorem ksym_round_trip_sample :
    ∃ img, ksymMain [] (List.zipWith Symbol.line [symA, symB, symA] [84, 84, 68]) = some img ∧
      ksymResolveSymbol img symB.name = some 0xFFFFFFFF80000000 ∧
        (ksymScan img symB.name).map Prod.snd = some [0, 10] := by
  obtain ⟨img, himg, hres, hscan, -⟩ :=
    ksym_round_trip [symA, symB, symA] [84, 84, 68] rfl symB.name
  exact ⟨img, himg, hres, hscan⟩

end LykOS.Ksym
