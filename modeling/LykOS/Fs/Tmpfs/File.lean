import LykOS.Fs.Vfs.Model
import LykOS.Lib.Run
import Mathlib.Data.Option.Basic

/-!
# Files of tmpfs

`tmpfs_read` and `tmpfs_write` of `fs/tmpfs.c`. A file keeps its bytes in a list of pages, and both
functions go through the list with the same window test. The test takes the pages that start at or before
`offset`, where it should take those that overlap the range. So the first page is always taken, with an
offset that may lie behind it, and no page after that of `offset` ever is. A `memcpy` that leaves its page
has no result here.

A file is a byte array exactly in the runs whose calls stay in the first page, or in the second one
from its start (`tmpfs_file_iff`).
-/

namespace LykOS.Tmpfs

open Vfs Run
open List hiding max min

/-- The part of `tmpfs_node_t` that makes up a file. `taken` counts the frames it has got. -/
structure FileNode where
  size : ℕ
  pages : List (ℕ → UInt8)
  taken : ℕ

/-- The window test for the page at `pageStart`: the offset into the page and the number of bytes to
copy. -/
def window (offset count pageStart copied : ℕ) : Option (ℕ × ℕ) :=
  if pageStart ≤ offset ∧ pageStart < u64 (offset + count) then
    let pageOffset := offset - pageStart
    some (pageOffset, min (u64 (archPageGran + (2 ^ 64 - pageOffset))) (count - copied))
  else none

def slice (page : ℕ → UInt8) (start n : ℕ) : List UInt8 :=
  (List.range n).map fun k => page (start + k)

/-- The loop of `tmpfs_read`, with the bytes copied so far. -/
def readPages (offset count : ℕ) : ℕ → List UInt8 → List (ℕ → UInt8) → Option (List UInt8)
  | _, copied, [] => some copied
  | pageStart, copied, page :: l =>
    match window offset count pageStart copied.length with
    | none => readPages offset count (u64 (pageStart + archPageGran)) copied l
    | some (pageOffset, n) => do
      guard (n = 0 ∨ pageOffset + n ≤ archPageGran)
      readPages offset count (u64 (pageStart + archPageGran)) (copied ++ slice page pageOffset n) l

/-- `tmpfs_read(self, offset, buffer, count, &out)`: the bytes in the buffer, whose number is left in
`*out`. The status is `EOK`. -/
def tmpfsRead (node : FileNode) (offset count : ℕ) : Option (List UInt8) :=
  readPages offset count 0 [] node.pages

/-- The loop of `tmpfs_write`: the number of bytes copied, and the pages. -/
def writePages (buffer : ℕ → UInt8) (offset count : ℕ) :
    ℕ → ℕ → List (ℕ → UInt8) → Option (ℕ × List (ℕ → UInt8))
  | _, copied, [] => some (copied, [])
  | pageStart, copied, page :: l =>
    match window offset count pageStart copied with
    | none => do
      let (out, l) ← writePages buffer offset count (u64 (pageStart + archPageGran)) copied l
      return (out, page :: l)
    | some (pageOffset, n) => do
      guard (n = 0 ∨ pageOffset + n ≤ archPageGran)
      let (out, l) ← writePages buffer offset count (u64 (pageStart + archPageGran)) (copied + n) l
      return (out, memcpy page pageOffset buffer copied n :: l)

/-- `CEIL(size, ARCH_PAGE_GRAN) / ARCH_PAGE_GRAN`. -/
def pageCount (size : ℕ) : ℕ := ceilTo size archPageGran / archPageGran

/-- The pages of the file with those that `tmpfs_write` appends; `fresh` are the contents of the frames
that `pmm_alloc` returns. -/
def growPages (fresh : ℕ → ℕ → UInt8) (node : FileNode) (size : ℕ) : List (ℕ → UInt8) :=
  node.pages ++ (List.range (pageCount size - pageCount node.size)).map fun i => fresh (node.taken + i)

/-- `tmpfs_write(self, offset, buffer, count, &out)`: the value left in `*out`, and the file. The status
is `EOK`. -/
def tmpfsWrite (fresh : ℕ → ℕ → UInt8) (node : FileNode) (offset : ℕ) (buffer : ℕ → UInt8)
    (count : ℕ) : Option (ℕ × FileNode) := do
  let needed := u64 (offset + count)
  let (copied, pages) ← writePages buffer offset count 0 0 (growPages fresh node needed)
  let size := if u64 (offset + copied) > node.size then u64 (offset + copied) else node.size
  return (copied, ⟨size, pages, node.taken + (pageCount needed - pageCount node.size)⟩)

/-! ## Byte arrays -/

def byteOf (l : List (ℕ → UInt8)) (x : ℕ) : Option UInt8 :=
  (l[x / archPageGran]?).map fun page => page (x % archPageGran)

def FileNode.byte? (node : FileNode) (x : ℕ) : Option UInt8 := byteOf node.pages x

/-- A file, and the byte last written at each position. -/
structure FileWorld where
  node : FileNode
  written : ℕ → Option UInt8

/-- The calls. The end of the range does not overflow. -/
inductive FileOp
  | write (offset : ℕ) (buffer : ℕ → UInt8) (count : ℕ) (h : offset + count < 2 ^ 64)
  | read (offset count : ℕ) (h : offset + count < 2 ^ 64)

def fileStep (fresh : ℕ → ℕ → UInt8) (w : FileWorld) : FileOp → Option FileWorld
  | .write offset buffer count _ => do
    let (_, node) ← tmpfsWrite fresh w.node offset buffer count
    return ⟨node, fun x =>
      if offset ≤ x ∧ x < offset + count then some (buffer (x - offset)) else w.written x⟩
  | .read offset count _ => do
    let _ ← tmpfsRead w.node offset count
    return w

/-- All bytes are stored, the size is the larger one, the other bytes stay, and there are as many pages
as the size asks for. -/
structure Wrote (offset : ℕ) (buffer : ℕ → UInt8) (count : ℕ) (node node' : FileNode) : Prop where
  size : node'.size = max node.size (offset + count)
  stored : ∀ k < count, node'.byte? (offset + k) = some (buffer k)
  others : ∀ x b, x < offset ∨ offset + count ≤ x → node.byte? x = some b → node'.byte? x = some b
  pages : node'.pages.length = (node'.size + (archPageGran - 1)) / archPageGran

/-- The call does what it does on a growable byte array. -/
def IsByteArray (fresh : ℕ → ℕ → UInt8) (w : FileWorld) : FileOp → Prop
  | .write offset buffer count _ =>
    ∃ node, tmpfsWrite fresh w.node offset buffer count = some (count, node) ∧
      Wrote offset buffer count w.node node
  | .read offset count _ =>
    ∃ bytes, tmpfsRead w.node offset count = some bytes ∧
      bytes.length = min count (w.node.size - offset) ∧
      ∀ k < bytes.length, ∀ b, w.written (offset + k) = some b → bytes[k]? = some b

/-- Writes that stay in the first page, or in the second one from its start. Nothing is written at an
offset for which the pages can be counted. -/
def WriteFits (offset count : ℕ) : Prop :=
  (count = 0 ∧ offset ≤ 2 ^ 64 - archPageGran) ∨ offset + count ≤ archPageGran ∨
    (offset = archPageGran ∧ count ≤ archPageGran)

/-- Reads that stay in the file and in the first page, or in the second one from its start, and reads
up to the end of a file that ends there. -/
def ReadFits (size offset count : ℕ) : Prop :=
  count = 0 ∨ size = 0 ∨
    (offset < archPageGran ∧ (offset + count ≤ min size archPageGran ∨
      (size = archPageGran ∧ archPageGran ≤ offset + count))) ∨
    (offset = archPageGran ∧ (size ≤ archPageGran ∨
      (count ≤ archPageGran ∧ offset + count ≤ size) ∨
      (size = 2 * archPageGran ∧ archPageGran ≤ count)))

def FitsPages (w : FileWorld) : FileOp → Prop
  | .write offset _ count _ => WriteFits offset count
  | .read offset count _ => ReadFits w.node.size offset count

/-! ## The window test -/

section

variable {offset count pageStart copied : ℕ}

theorem window_of_lt (h : offset < pageStart) : window offset count pageStart copied = none :=
  if_neg fun hc => absurd hc.1 (Nat.not_le.mpr h)

theorem copy_length (hnear : offset ≤ pageStart + archPageGran) :
    u64 (archPageGran + (2 ^ 64 - (offset - pageStart))) = archPageGran - (offset - pageStart) := by
  unfold u64 archPageGran at *
  omega

theorem window_of_le (hpos : 0 < count) (hlt : offset + count < 2 ^ 64) (hle : pageStart ≤ offset)
    (hnear : offset ≤ pageStart + archPageGran) :
    window offset count pageStart copied =
      some (offset - pageStart, min (archPageGran - (offset - pageStart)) (count - copied)) := by
  unfold window
  rw [u64_of_lt hlt, if_pos ⟨hle, by omega⟩]
  dsimp only
  rw [copy_length hnear]

theorem window_of_far (hlt : offset + count < 2 ^ 64) (hpos : 0 < count)
    (hfar : pageStart + archPageGran < offset) :
    window offset count pageStart copied = some (offset - pageStart, count - copied) := by
  have hcopy : min (u64 (archPageGran + (2 ^ 64 - (offset - pageStart)))) (count - copied) =
      count - copied := by
    unfold u64 archPageGran at *
    omega
  unfold window
  rw [u64_of_lt hlt, if_pos ⟨by omega, by omega⟩]
  dsimp only
  rw [hcopy]

theorem window_zero : window offset 0 pageStart copied = none ∨
    window offset 0 pageStart copied = some (offset - pageStart, 0) := by
  unfold window
  dsimp only
  split_ifs
  · exact Or.inr (by rw [Nat.zero_sub, Nat.min_zero])
  · exact Or.inl rfl

end

/-! ## The loops -/

theorem memcpy_zero (page : ℕ → UInt8) (start : ℕ) (buffer : ℕ → UInt8) (src : ℕ) :
    memcpy page start buffer src 0 = page := by
  funext k
  exact if_neg (by omega)

theorem slice_length (page : ℕ → UInt8) (start n : ℕ) : (slice page start n).length = n := by
  unfold slice
  rw [length_map, length_range]

theorem slice_getElem? {page : ℕ → UInt8} {start n k : ℕ} (hk : k < n) :
    (slice page start n)[k]? = some (page (start + k)) := by
  unfold slice
  rw [getElem?_map, getElem?_range hk]
  rfl

section

variable {offset count : ℕ}

theorem readPages_skip {bytes : List UInt8} {l : List (ℕ → UInt8)} :
    ∀ {pageStart : ℕ}, offset < pageStart → pageStart + archPageGran * l.length < 2 ^ 64 →
      readPages offset count pageStart bytes l = some bytes := by
  induction l with
  | nil => exact fun _ _ => rfl
  | cons page l ih =>
    intro pageStart hlt hlen
    rw [length_cons, Nat.mul_succ] at hlen
    unfold readPages
    rw [window_of_lt hlt, u64_of_lt (by omega)]
    exact ih (by omega) (by omega)

theorem readPages_zero (l : List (ℕ → UInt8)) (pageStart : ℕ) :
    readPages offset 0 pageStart [] l = some [] := by
  induction l generalizing pageStart with
  | nil => rfl
  | cons page l ih =>
    unfold readPages
    rcases @window_zero offset pageStart ([] : List UInt8).length with h | h
    · rw [h]
      exact ih _
    · rw [h]
      exact ih _

variable {buffer : ℕ → UInt8}

theorem writePages_skip {copied : ℕ} {l : List (ℕ → UInt8)} :
    ∀ {pageStart : ℕ}, offset < pageStart → pageStart + archPageGran * l.length < 2 ^ 64 →
      writePages buffer offset count pageStart copied l = some (copied, l) := by
  induction l with
  | nil => exact fun _ _ => rfl
  | cons page l ih =>
    intro pageStart hlt hlen
    rw [length_cons, Nat.mul_succ] at hlen
    unfold writePages
    rw [window_of_lt hlt, u64_of_lt (by omega), ih (by omega) (by omega)]
    rfl

theorem writePages_zero (l : List (ℕ → UInt8)) (pageStart : ℕ) :
    writePages buffer offset 0 pageStart 0 l = some (0, l) := by
  induction l generalizing pageStart with
  | nil => rfl
  | cons page l ih =>
    unfold writePages
    rcases @window_zero offset pageStart 0 with h | h
    · rw [h, ih]
      rfl
    · rw [h]
      dsimp only
      rw [ih, memcpy_zero]
      rfl

variable {page : ℕ → UInt8} {l : List (ℕ → UInt8)} (hlt : offset + count < 2 ^ 64) (hpos : 0 < count)

include hlt hpos

theorem readPages_far (hfar : archPageGran < offset) : readPages offset count 0 [] (page :: l) = none := by
  unfold readPages
  rw [window_of_far hlt hpos (by omega)]
  have hguard : ¬ (count - 0 = 0 ∨ offset - 0 + (count - 0) ≤ archPageGran) := by omega
  simp only [length_nil, guard, if_neg hguard]
  rfl

theorem writePages_far (hfar : archPageGran < offset) :
    writePages buffer offset count 0 0 (page :: l) = none := by
  unfold writePages
  rw [window_of_far hlt hpos (by omega)]
  have hguard : ¬ (count - 0 = 0 ∨ offset - 0 + (count - 0) ≤ archPageGran) := by omega
  simp only [guard, if_neg hguard]
  rfl

theorem readPages_near {pageStart : ℕ} {bytes : List UInt8} (hle : pageStart ≤ offset)
    (hnear : offset ≤ pageStart + archPageGran) :
    readPages offset count pageStart bytes (page :: l) =
      readPages offset count (u64 (pageStart + archPageGran)) (bytes ++ slice page (offset - pageStart)
        (min (archPageGran - (offset - pageStart)) (count - bytes.length))) l := by
  rw [readPages, window_of_le hpos hlt hle hnear]
  simp only [guard, Option.bind_eq_bind]
  rw [if_pos (by omega)]
  rfl

theorem writePages_near {pageStart copied : ℕ} (hle : pageStart ≤ offset)
    (hnear : offset ≤ pageStart + archPageGran) :
    writePages buffer offset count pageStart copied (page :: l) =
      let n := min (archPageGran - (offset - pageStart)) (count - copied)
      (writePages buffer offset count (u64 (pageStart + archPageGran)) (copied + n) l).map fun r =>
        (r.1, memcpy page (offset - pageStart) buffer copied n :: r.2) := by
  rw [writePages, window_of_le hpos hlt hle hnear]
  simp only [guard, Option.bind_eq_bind]
  rw [if_pos (by omega)]
  generalize writePages buffer offset count _ _ l = r
  cases r with
  | none => rfl
  | some r => rfl

theorem readPages_first (hoff : offset < archPageGran)
    (hlen : archPageGran * (page :: l).length < 2 ^ 64) :
    readPages offset count 0 [] (page :: l) =
      some (slice page offset (min (archPageGran - offset) count)) := by
  rw [length_cons, Nat.mul_succ] at hlen
  rw [readPages_near hlt hpos (Nat.zero_le _) (by omega), Nat.zero_add, u64_of_lt (by omega)]
  exact readPages_skip hoff (by omega)

theorem writePages_first (hoff : offset < archPageGran)
    (hlen : archPageGran * (page :: l).length < 2 ^ 64) :
    writePages buffer offset count 0 0 (page :: l) =
      let n := min (archPageGran - offset) count
      some (n, memcpy page offset buffer 0 n :: l) := by
  rw [length_cons, Nat.mul_succ] at hlen
  rw [writePages_near hlt hpos (Nat.zero_le _) (by omega), Nat.zero_add, u64_of_lt (by omega)]
  dsimp only
  rw [writePages_skip hoff (by omega)]
  simp only [Option.map_some, Nat.sub_zero, Nat.zero_add]

end

section

variable {count : ℕ} {page page' : ℕ → UInt8} {l : List (ℕ → UInt8)}
  (hlt : archPageGran + count < 2 ^ 64) (hpos : 0 < count)

include hlt hpos

theorem readPages_boundary :
    readPages archPageGran count 0 [] (page :: l) = readPages archPageGran count archPageGran [] l := by
  rw [readPages_near hlt hpos (Nat.zero_le _) (by omega), Nat.zero_add,
    u64_of_lt (by unfold archPageGran; omega), Nat.sub_zero, Nat.sub_self, Nat.zero_min]
  rfl

theorem writePages_boundary {buffer : ℕ → UInt8} :
    writePages buffer archPageGran count 0 0 (page :: l) =
      (writePages buffer archPageGran count archPageGran 0 l).map fun r => (r.1, page :: r.2) := by
  rw [writePages_near hlt hpos (Nat.zero_le _) (by omega), Nat.zero_add,
    u64_of_lt (by unfold archPageGran; omega), Nat.sub_zero, Nat.sub_self, Nat.zero_min]
  dsimp only
  rw [memcpy_zero]

theorem readPages_second (hlen : archPageGran * (page :: page' :: l).length < 2 ^ 64) :
    readPages archPageGran count 0 [] (page :: page' :: l) =
      some (slice page' 0 (min archPageGran count)) := by
  rw [length_cons, length_cons, Nat.mul_succ, Nat.mul_succ] at hlen
  rw [readPages_boundary hlt hpos, readPages_near hlt hpos (Nat.le_refl _) (by omega), Nat.sub_self,
    u64_of_lt (by omega)]
  exact readPages_skip (by unfold archPageGran; omega) (by omega)

theorem writePages_second {buffer : ℕ → UInt8}
    (hlen : archPageGran * (page :: page' :: l).length < 2 ^ 64) :
    writePages buffer archPageGran count 0 0 (page :: page' :: l) =
      let n := min archPageGran count
      some (n, page :: memcpy page' 0 buffer 0 n :: l) := by
  rw [length_cons, length_cons, Nat.mul_succ, Nat.mul_succ] at hlen
  rw [writePages_boundary hlt hpos, writePages_near hlt hpos (Nat.le_refl _) (by omega), Nat.sub_self,
    u64_of_lt (by omega)]
  dsimp only
  rw [writePages_skip (by unfold archPageGran; omega) (by omega)]
  simp only [Option.map_some, Nat.sub_zero, Nat.zero_add]

end

/-! ## Writes -/

theorem writePages_fits (buffer : ℕ → UInt8) {offset count : ℕ} {l : List (ℕ → UInt8)}
    (hlt : offset + count < 2 ^ 64) (hfit : WriteFits offset count)
    (hpages : 0 < count → offset / archPageGran < l.length) (hlen : archPageGran * l.length < 2 ^ 64) :
    writePages buffer offset count 0 0 l = some (count,
      l.modify (offset / archPageGran) fun p => memcpy p (offset % archPageGran) buffer 0 count) := by
  rcases Nat.eq_zero_or_pos count with rfl | hpos
  · rw [writePages_zero]
    simp only [memcpy_zero]
    exact congrArg (fun l => some (0, l)) (modify_id _ l).symm
  · rcases hfit with ⟨hzero, -⟩ | hfirst | ⟨rfl, hsecond⟩
    · omega
    · have hoff : offset < archPageGran := by omega
      rw [Nat.div_eq_of_lt hoff, Nat.mod_eq_of_lt hoff] at *
      obtain ⟨page, l, rfl⟩ := exists_cons_of_length_pos (hpages hpos)
      rw [writePages_first hlt hpos hoff hlen]
      dsimp only
      rw [Nat.min_eq_right (by omega)]
      rfl
    · rw [Nat.div_self (by decide), Nat.mod_self] at *
      match l, hpages hpos with
      | page :: page' :: l, _ =>
        rw [writePages_second hlt hpos hlen]
        dsimp only
        rw [Nat.min_eq_right hsecond]
        rfl

theorem writeFits_of_writePages {buffer : ℕ → UInt8} {offset count : ℕ} {l l' : List (ℕ → UInt8)}
    (hlt : offset + count < 2 ^ 64) (hpos : 0 < count) (hlen : archPageGran * l.length < 2 ^ 64)
    (h : writePages buffer offset count 0 0 l = some (count, l')) : WriteFits offset count := by
  cases l with
  | nil =>
    cases h
    omega
  | cons page l =>
    rcases Nat.lt_trichotomy offset archPageGran with hoff | rfl | hfar
    · rw [writePages_first hlt hpos hoff hlen] at h
      have hn : min (archPageGran - offset) count = count := congrArg Prod.fst (Option.some.inj h)
      exact Or.inr (Or.inl (by omega))
    · cases l with
      | nil =>
        rw [writePages_boundary hlt hpos] at h
        cases h
        omega
      | cons page' l =>
        rw [writePages_second hlt hpos hlen] at h
        have hn : min archPageGran count = count := congrArg Prod.fst (Option.some.inj h)
        exact Or.inr (Or.inr ⟨rfl, by omega⟩)
    · rw [writePages_far hlt hpos hfar] at h
      cases h

theorem pageCount_eq {size : ℕ} (h : size ≤ 2 ^ 64 - archPageGran) :
    pageCount size = (size + (archPageGran - 1)) / archPageGran := by
  unfold pageCount ceilTo u64 archPageGran at *
  omega

theorem pageCount_wraps {size : ℕ} (hlt : size < 2 ^ 64) (h : 2 ^ 64 - archPageGran < size) :
    pageCount size = 0 := by
  unfold pageCount ceilTo u64 archPageGran at *
  omega

theorem pageCount_lt (size : ℕ) : archPageGran * pageCount size < 2 ^ 64 := by
  unfold pageCount ceilTo u64 archPageGran
  omega

/-- The pages of a file: as many as its size asks for, and it is not too large to count them. -/
structure FileNode.Counted (node : FileNode) : Prop where
  size_le : node.size ≤ 2 ^ 64 - archPageGran
  pages : node.pages.length = (node.size + (archPageGran - 1)) / archPageGran

section

variable {fresh : ℕ → ℕ → UInt8} {node : FileNode} {offset count : ℕ} {buffer : ℕ → UInt8}

theorem growPages_length (fresh : ℕ → ℕ → UInt8) (h : node.Counted) (size : ℕ) :
    (growPages fresh node size).length = max (pageCount node.size) (pageCount size) := by
  unfold growPages
  rw [length_append, length_map, length_range, h.pages, ← pageCount_eq h.size_le]
  omega

theorem growPages_getElem? {i : ℕ} (size : ℕ) {page : ℕ → UInt8} (h : node.pages[i]? = some page) :
    (growPages fresh node size)[i]? = some page := by
  obtain ⟨hi, -⟩ := List.getElem?_eq_some_iff.mp h
  unfold growPages
  rw [getElem?_append_left hi, h]

theorem growPages_lt (h : node.Counted) (size : ℕ) :
    archPageGran * (growPages fresh node size).length < 2 ^ 64 := by
  rw [growPages_length fresh h]
  rcases Nat.le_total (pageCount node.size) (pageCount size) with hle | hle
  · rw [Nat.max_eq_right hle]
    exact pageCount_lt size
  · rw [Nat.max_eq_left hle]
    exact pageCount_lt node.size

/-- The pages after a copy into that of `offset`. -/
def writtenPages (l : List (ℕ → UInt8)) (offset : ℕ) (buffer : ℕ → UInt8) (count : ℕ) :
    List (ℕ → UInt8) :=
  l.modify (offset / archPageGran) fun p => memcpy p (offset % archPageGran) buffer 0 count

theorem byteOf_writtenPages (l : List (ℕ → UInt8)) (buffer : ℕ → UInt8)
    (hpage : offset % archPageGran + count ≤ archPageGran) (x : ℕ) :
    byteOf (writtenPages l offset buffer count) x =
      if offset ≤ x ∧ x < offset + count then (byteOf l x).map fun _ => buffer (x - offset)
      else byteOf l x := by
  unfold byteOf writtenPages
  rw [getElem?_modify]
  cases hl : l[x / archPageGran]? with
  | none => simp
  | some page =>
    simp only [Option.map_eq_map, Option.map_some]
    by_cases hdiv : offset / archPageGran = x / archPageGran
    · have hiff : (offset % archPageGran ≤ x % archPageGran ∧
          x % archPageGran < offset % archPageGran + count) ↔ (offset ≤ x ∧ x < offset + count) := by
        unfold archPageGran at *
        omega
      rw [if_pos hdiv]
      unfold memcpy
      by_cases hin : offset ≤ x ∧ x < offset + count
      · have hsrc : 0 + (x % archPageGran - offset % archPageGran) = x - offset := by
          unfold archPageGran at *
          omega
        rw [if_pos hin, if_pos (hiff.mpr hin), hsrc]
      · rw [if_neg hin, if_neg fun hc => hin (hiff.mp hc)]
    · have hout : ¬ (offset ≤ x ∧ x < offset + count) := by
        unfold archPageGran at *
        omega
      rw [if_neg hdiv, if_neg hout]

theorem tmpfsWrite_of_fits (fresh : ℕ → ℕ → UInt8) (buffer : ℕ → UInt8) (h : node.Counted)
    (hlt : offset + count < 2 ^ 64) (hfit : WriteFits offset count) :
    ∃ node', tmpfsWrite fresh node offset buffer count = some (count, node') ∧
      Wrote offset buffer count node node' := by
  have hend : offset + count ≤ 2 ^ 64 - archPageGran := by
    unfold WriteFits archPageGran at hfit
    unfold archPageGran
    omega
  have hcount := pageCount_eq hend
  have hgrow := growPages_length fresh h (offset + count)
  have hpages : 0 < count → offset / archPageGran < (growPages fresh node (offset + count)).length := by
    intro hpos
    rw [hgrow, hcount]
    unfold archPageGran
    omega
  have hmod : offset % archPageGran + count ≤ archPageGran := by
    unfold WriteFits archPageGran at *
    omega
  have hsize : (if offset + count > node.size then offset + count else node.size) =
      max node.size (offset + count) := by
    split_ifs <;> omega
  have hrun : tmpfsWrite fresh node offset buffer count = some (count,
      ⟨max node.size (offset + count), writtenPages (growPages fresh node (offset + count)) offset
        buffer count, node.taken + (pageCount (offset + count) - pageCount node.size)⟩) := by
    unfold tmpfsWrite
    dsimp only
    rw [u64_of_lt hlt, writePages_fits buffer hlt hfit hpages (growPages_lt h _)]
    dsimp only [Option.bind_eq_bind, Option.bind_some]
    rw [u64_of_lt hlt, hsize]
    rfl
  refine ⟨_, hrun, rfl, fun k hk => ?_, fun x b hx hb => ?_, ?_⟩
  · refine (byteOf_writtenPages _ buffer hmod (offset + k)).trans ?_
    rw [if_pos ⟨Nat.le_add_right _ _, by omega⟩, Nat.add_sub_cancel_left]
    have hlt : (offset + k) / archPageGran < (growPages fresh node (offset + count)).length := by
      have hdiv := hpages (by omega)
      unfold archPageGran at *
      omega
    unfold byteOf
    rw [getElem?_eq_getElem hlt]
    rfl
  · refine (byteOf_writtenPages _ buffer hmod x).trans ?_
    rw [if_neg (by omega)]
    unfold FileNode.byte? byteOf at hb
    obtain ⟨page, hpage, rfl⟩ := Option.map_eq_some_iff.mp hb
    unfold byteOf
    rw [growPages_getElem? _ hpage]
    rfl
  · dsimp only [writtenPages]
    rw [length_modify, hgrow, hcount, pageCount_eq h.size_le]
    rcases Nat.le_total node.size (offset + count) with hle | hle
    · rw [Nat.max_eq_right hle, Nat.max_eq_right (by unfold archPageGran; omega)]
    · rw [Nat.max_eq_left hle, Nat.max_eq_left (by unfold archPageGran; omega)]

theorem writeFits_of_wrote (h : node.Counted) (hlt : offset + count < 2 ^ 64) {node' : FileNode}
    (hrun : tmpfsWrite fresh node offset buffer count = some (count, node'))
    (hwrote : Wrote offset buffer count node node') : WriteFits offset count := by
  simp only [tmpfsWrite, u64_of_lt hlt, Option.bind_eq_bind, Option.bind_eq_some_iff, Option.pure_def,
    Option.some.injEq, Prod.mk.injEq] at hrun
  obtain ⟨⟨copied, l⟩, hpages, rfl, rfl⟩ := hrun
  rcases Nat.eq_zero_or_pos copied with rfl | hpos
  · refine Or.inl ⟨rfl, Nat.le_of_not_lt fun hbig => ?_⟩
    -- the pages were not counted, as their number wrapped to zero
    have hlen := hwrote.pages
    have hsize := hwrote.size
    rw [writePages_zero] at hpages
    have hl : l = growPages fresh node (offset + 0) := (congrArg Prod.snd (Option.some.inj hpages)).symm
    have hwraps : pageCount offset = 0 := pageCount_wraps hlt hbig
    dsimp only at hlen hsize
    rw [hsize, hl, growPages_length fresh h, Nat.add_zero, hwraps, pageCount_eq h.size_le] at hlen
    have hle := h.size_le
    unfold archPageGran at *
    omega
  · exact writeFits_of_writePages hlt hpos (growPages_lt h _) hpages

end

/-! ## Reads -/

theorem exists_slice_iff {page : ℕ → UInt8} {start n length : ℕ} {f : ℕ → Option UInt8}
    (hf : ∀ k < n, ∀ b, f k = some b → page (start + k) = b) :
    (∃ bytes, some (slice page start n) = some bytes ∧ bytes.length = length ∧
      ∀ k < bytes.length, ∀ b, f k = some b → bytes[k]? = some b) ↔ n = length := by
  constructor
  · rintro ⟨bytes, hbytes, rfl, -⟩
    rw [← Option.some.inj hbytes, slice_length]
  · rintro rfl
    refine ⟨_, rfl, slice_length page start n, fun k hk b hb => ?_⟩
    rw [slice_length] at hk
    rw [slice_getElem? hk, hf k hk b hb]

theorem read_nil_iff {written : ℕ → Option UInt8} {size offset count : ℕ} {r : Option (List UInt8)}
    (hr : r = some []) (hmin : min count (size - offset) = 0) (hfit : ReadFits size offset count) :
    (∃ bytes, r = some bytes ∧ bytes.length = min count (size - offset) ∧
      ∀ k < bytes.length, ∀ b, written (offset + k) = some b → bytes[k]? = some b) ↔
    ReadFits size offset count :=
  iff_of_true ⟨[], hr, hmin.symm, fun k hk => absurd hk (Nat.not_lt_zero k)⟩ hfit

theorem tmpfsRead_iff {node : FileNode} {written : ℕ → Option UInt8} {offset count : ℕ}
    (h : node.Counted) (hw : ∀ x b, written x = some b → node.byte? x = some b)
    (hlt : offset + count < 2 ^ 64) :
    (∃ bytes, tmpfsRead node offset count = some bytes ∧
      bytes.length = min count (node.size - offset) ∧
      ∀ k < bytes.length, ∀ b, written (offset + k) = some b → bytes[k]? = some b) ↔
    ReadFits node.size offset count := by
  have hlen := h.pages
  have hbound : archPageGran * node.pages.length < 2 ^ 64 := by
    have hle := h.size_le
    unfold archPageGran at *
    omega
  unfold FileNode.byte? at hw
  unfold tmpfsRead
  rcases Nat.eq_zero_or_pos count with rfl | hpos
  · exact read_nil_iff (readPages_zero _ _) (Nat.zero_min _) (Or.inl rfl)
  match hl : node.pages with
  | [] =>
    have hsize : node.size = 0 := by
      rw [hl, length_nil] at hlen
      unfold archPageGran at hlen
      omega
    exact read_nil_iff rfl (by rw [hsize, Nat.zero_sub, Nat.min_zero]) (Or.inr (Or.inl hsize))
  | page :: l =>
    rw [hl] at hbound hlen hw
    rw [length_cons] at hlen
    rcases Nat.lt_trichotomy offset archPageGran with hoff | rfl | hfar
    · have hbyte : ∀ k < min (archPageGran - offset) count,
          byteOf (page :: l) (offset + k) = some (page (offset + k)) := by
        intro k hk
        unfold byteOf
        rw [Nat.div_eq_of_lt (by omega), Nat.mod_eq_of_lt (by omega)]
        rfl
      rw [readPages_first hlt hpos hoff hbound, exists_slice_iff fun k hk b hb =>
        Option.some.inj ((hbyte k hk).symm.trans (hw _ b hb))]
      unfold ReadFits archPageGran at *
      omega
    · match l with
      | [] =>
        have hsize : node.size ≤ archPageGran := by
          rw [length_nil] at hlen
          unfold archPageGran at *
          omega
        exact read_nil_iff (readPages_boundary hlt hpos)
          (by rw [Nat.sub_eq_zero_of_le hsize, Nat.min_zero])
          (Or.inr (Or.inr (Or.inr ⟨rfl, Or.inl hsize⟩)))
      | page' :: l =>
        have hbyte : ∀ k < min archPageGran count,
            byteOf (page :: page' :: l) (archPageGran + k) = some (page' (0 + k)) := by
          intro k hk
          unfold byteOf
          rw [Nat.add_div_left k (by decide), Nat.add_mod_left, Nat.div_eq_of_lt (by omega),
            Nat.mod_eq_of_lt (by omega)]
          exact congrArg (fun k => some (page' k)) (Nat.zero_add k).symm
        rw [readPages_second hlt hpos hbound, exists_slice_iff fun k hk b hb =>
          Option.some.inj ((hbyte k hk).symm.trans (hw _ b hb))]
        rw [length_cons] at hlen
        unfold ReadFits archPageGran at *
        omega
    · rw [readPages_far hlt hpos hfar]
      constructor
      · rintro ⟨bytes, hbytes, -⟩
        cases hbytes
      · intro hfit
        unfold ReadFits archPageGran at *
        omega

/-! ## Runs -/

/-- The pages are counted, and what was written is in them. -/
structure FileInv (w : FileWorld) : Prop where
  counted : w.node.Counted
  written : ∀ x b, w.written x = some b → w.node.byte? x = some b

section

variable {fresh : ℕ → ℕ → UInt8} {w : FileWorld}

theorem FileInv.isByteArray_iff (h : FileInv w) (op : FileOp) :
    IsByteArray fresh w op ↔ FitsPages w op := by
  cases op with
  | write offset buffer count hlt =>
    constructor
    · rintro ⟨node, hrun, hwrote⟩
      exact writeFits_of_wrote h.counted hlt hrun hwrote
    · exact fun hfit => tmpfsWrite_of_fits fresh buffer h.counted hlt hfit
  | read offset count hlt => exact tmpfsRead_iff h.counted h.written hlt

theorem FileInv.step (h : FileInv w) {op : FileOp} (hfit : FitsPages w op) {w' : FileWorld}
    (hs : fileStep fresh w op = some w') : FileInv w' := by
  cases op with
  | write offset buffer count hlt =>
    obtain ⟨node, hrun, hwrote⟩ := tmpfsWrite_of_fits fresh buffer h.counted hlt hfit
    simp only [fileStep, hrun, Option.bind_eq_bind, Option.bind_some, Option.pure_def,
      Option.some.injEq] at hs
    subst hs
    refine ⟨⟨?_, hwrote.pages⟩, fun x b hx => ?_⟩
    · have hsize := hwrote.size
      have hle := h.counted.size_le
      unfold FitsPages WriteFits archPageGran at hfit
      unfold archPageGran at *
      dsimp only
      omega
    · dsimp only at hx ⊢
      split_ifs at hx with hin
      · have hstored := hwrote.stored (x - offset) (by omega)
        rwa [Nat.add_sub_cancel' hin.1, hx] at hstored
      · exact hwrote.others x b (by omega) (h.written x b hx)
  | read offset count hlt =>
    simp only [fileStep, Option.bind_eq_bind, Option.bind_eq_some_iff, Option.pure_def,
      Option.some.injEq] at hs
    obtain ⟨bytes, -, rfl⟩ := hs
    exact h

end

def newFile : FileWorld := ⟨⟨0, [], 0⟩, fun _ => none⟩

/-- Whatever the new frames hold, a run treats the file as a byte array exactly if all its calls fit
the first two pages. -/
theorem tmpfs_file_iff (fresh : ℕ → ℕ → UInt8) (ops : List FileOp) :
    Meets (fileStep fresh) (IsByteArray fresh) newFile ops ↔
      Meets (fileStep fresh) FitsPages newFile ops := by
  have hnew : FileInv newFile := ⟨⟨Nat.zero_le _, rfl⟩, fun x b hx => by cases hx⟩
  exact meets_iff_of_step (fun w op h => h.isByteArray_iff op)
    (fun w op w' h hfit hs => h.step hfit hs) hnew

/-- Three bytes in the first page are written and read back, and one is written at the start of the
second page. -/
theorem tmpfs_file_iff_sample :
    Meets (fileStep fun _ _ => 0) (IsByteArray fun _ _ => 0) newFile
      [.write 10 (fun _ => 7) 3 (by decide), .read 10 3 (by decide),
        .write 4096 (fun _ => 8) 1 (by decide)] := by
  refine (tmpfs_file_iff _ _).mpr ⟨Or.inr (Or.inl (by decide)), fun w₁ hw₁ => ?_⟩
  cases hw₁
  refine ⟨Or.inr (Or.inr (Or.inl (by decide))), fun w₂ _ => ?_⟩
  exact ⟨Or.inr (Or.inr (by decide)), fun _ _ => trivial⟩

/-- Two bytes across the end of the first page: only one is written, the file ends before the second
page that it got, and a read in that page has no result. -/
theorem tmpfs_write_stops_at_page :
    ∃ node, tmpfsWrite (fun _ _ => 0) newFile.node 4095 (fun _ => 7) 2 = some (1, node) ∧
      node.size = 4096 ∧ node.pages.length = 2 ∧ node.byte? 4096 = some 0 ∧
      tmpfsRead node 4097 1 = none :=
  ⟨_, rfl, by decide +kernel, by decide +kernel, by decide +kernel, by decide +kernel⟩

end LykOS.Tmpfs
