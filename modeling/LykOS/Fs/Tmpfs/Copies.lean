import LykOS.Fs.Tmpfs.File

/-!
# The copies of tmpfs

Each page that passes the window test is copied from or to: `ARCH_PAGE_GRAN - page_offset` bytes, or what is
left of `count`. The subtraction wraps around as soon as `offset` is more than a page behind the start of a
page, and the first page is always taken. So the copies stay in their pages exactly up to the offset 4096,
whatever the number of pages (`copies_inside_iff`).
-/

namespace LykOS.Tmpfs

open Vfs List

/-- A `memcpy` of the loops: `page_offset`, `bytes_to_copy`, and `copied` before it. -/
structure Copy where
  pageOffset : ℕ
  bytes : ℕ
  copied : ℕ
  deriving DecidableEq, Repr

/-- The copies of the loop of `tmpfs_read` and of that of `tmpfs_write`. -/
def copies (offset count : ℕ) : ℕ → ℕ → List (ℕ → UInt8) → List Copy
  | _, _, [] => []
  | pageStart, copied, _ :: l =>
    match window offset count pageStart copied with
    | none => copies offset count (u64 (pageStart + archPageGran)) copied l
    | some (pageOffset, n) =>
      ⟨pageOffset, n, copied⟩ :: copies offset count (u64 (pageStart + archPageGran)) (copied + n) l

/-- The copies of `tmpfs_read(self, offset, buffer, count, &out)`. -/
def readCopies (node : FileNode) (offset count : ℕ) : List Copy := copies offset count 0 0 node.pages

/-- The copies of `tmpfs_write(self, offset, buffer, count, &out)`. -/
def writeCopies (fresh : ℕ → ℕ → UInt8) (node : FileNode) (offset count : ℕ) : List Copy :=
  copies offset count 0 0 (growPages fresh node (u64 (offset + count)))

/-- The copy stays in the page. -/
def Copy.InPage (c : Copy) : Prop := c.bytes = 0 ∨ c.pageOffset + c.bytes ≤ archPageGran

/-- The subtraction `ARCH_PAGE_GRAN - page_offset` does not wrap around, and the copy stays in the page and
in the buffer of `count` bytes. -/
structure Copy.Inside (count : ℕ) (c : Copy) : Prop where
  no_wrap : c.pageOffset ≤ archPageGran
  page : c.pageOffset + c.bytes ≤ archPageGran
  buffer : c.copied + c.bytes ≤ count

/-! ## The copies of the loops -/

section

variable {offset count : ℕ} {l : List (ℕ → UInt8)}

variable {copied pageStart : ℕ}

theorem readPages_isSome_iff {bytes : List UInt8} :
    (readPages offset count pageStart bytes l).isSome ↔
      ∀ c ∈ copies offset count pageStart bytes.length l, c.InPage := by
  induction l generalizing pageStart bytes with
  | nil => simp [readPages, copies]
  | cons page l ih =>
    rw [readPages, copies]
    cases window offset count pageStart bytes.length with
    | none => exact ih
    | some w =>
      obtain ⟨pageOffset, n⟩ := w
      have hlength : bytes.length + n = (bytes ++ slice page pageOffset n).length := by
        rw [length_append, slice_length]
      rw [forall_mem_cons, hlength, ← ih]
      by_cases hpage : n = 0 ∨ pageOffset + n ≤ archPageGran
      · simp [guard, hpage, Copy.InPage]
      · simp [guard, hpage, Copy.InPage]

theorem writePages_isSome_iff {buffer : ℕ → UInt8} :
    (writePages buffer offset count pageStart copied l).isSome ↔
      ∀ c ∈ copies offset count pageStart copied l, c.InPage := by
  induction l generalizing pageStart copied with
  | nil => simp [writePages, copies]
  | cons page l ih =>
    rw [writePages, copies]
    cases window offset count pageStart copied with
    | none => simp [← ih, Option.isSome_bind]
    | some w =>
      obtain ⟨pageOffset, n⟩ := w
      rw [forall_mem_cons, ← ih]
      by_cases hpage : n = 0 ∨ pageOffset + n ≤ archPageGran
      · simp [guard, hpage, Copy.InPage, Option.isSome_bind]
      · simp [guard, hpage, Copy.InPage]

/-! ## Where they stay -/

theorem window_inside {pageOffset n : ℕ} (hoff : offset ≤ archPageGran) (hcopied : copied ≤ count)
    (h : window offset count pageStart copied = some (pageOffset, n)) :
    Copy.Inside count ⟨pageOffset, n, copied⟩ := by
  unfold window at h
  split_ifs at h
  obtain ⟨rfl, rfl⟩ := Prod.mk.inj (Option.some.inj h)
  rw [copy_length (by omega)]
  refine ⟨?_, ?_, ?_⟩ <;> dsimp only <;> omega

theorem copies_inside (hoff : offset ≤ archPageGran) (hcopied : copied ≤ count) :
    ∀ c ∈ copies offset count pageStart copied l, c.Inside count := by
  induction l generalizing pageStart copied with
  | nil => exact fun c hc => absurd hc not_mem_nil
  | cons page l ih =>
    rw [copies]
    cases hw : window offset count pageStart copied with
    | none => exact ih hcopied
    | some w =>
      have hinside := window_inside hoff hcopied hw
      exact forall_mem_cons.mpr ⟨hinside, ih hinside.buffer⟩

theorem window_first (hlt : offset + count < 2 ^ 64) (hfar : archPageGran < offset) :
    ∃ n, window offset count 0 0 = some (offset, n) := by
  unfold window
  rw [u64_of_lt hlt, if_pos ⟨Nat.zero_le _, by omega⟩]
  exact ⟨_, rfl⟩

theorem forall_copies_inside_iff (hlt : offset + count < 2 ^ 64) :
    (∀ c ∈ copies offset count 0 0 l, c.Inside count) ↔ l = [] ∨ offset ≤ archPageGran := by
  constructor
  · intro h
    cases l with
    | nil => exact .inl rfl
    | cons page l =>
      refine .inr (Nat.le_of_not_lt fun hfar => ?_)
      obtain ⟨n, hw⟩ := window_first hlt hfar
      rw [copies, hw] at h
      exact absurd (h _ mem_cons_self).no_wrap (Nat.not_le.mpr hfar)
  · rintro (rfl | hoff)
    · exact fun c hc => absurd hc not_mem_nil
    · exact copies_inside hoff (Nat.zero_le count)

theorem growPages_eq_nil_iff {fresh : ℕ → ℕ → UInt8} {node : FileNode} {size : ℕ} :
    growPages fresh node size = [] ↔ node.pages = [] ∧ pageCount size ≤ pageCount node.size := by
  unfold growPages
  rw [append_eq_nil_iff, map_eq_nil_iff, range_eq_nil, Nat.sub_eq_zero_iff_le]

end

/-- For every file, the copies of a read are inside the pages and the buffer exactly if there is no page
or the offset is at most 4096, and so are those of a write, with the pages that it appends. -/
theorem copies_inside_iff (fresh : ℕ → ℕ → UInt8) (node : FileNode) {offset count : ℕ}
    (hlt : offset + count < 2 ^ 64) :
    ((∀ c ∈ readCopies node offset count, c.Inside count) ↔
      node.pages = [] ∨ offset ≤ archPageGran) ∧
    ((∀ c ∈ writeCopies fresh node offset count, c.Inside count) ↔
      (node.pages = [] ∧ pageCount (offset + count) ≤ pageCount node.size) ∨ offset ≤ archPageGran) := by
  refine ⟨forall_copies_inside_iff hlt, ?_⟩
  unfold writeCopies
  rw [forall_copies_inside_iff hlt, u64_of_lt hlt, growPages_eq_nil_iff]

/-- Five bytes from the byte 4094 on, in a file of two pages. -/
theorem copies_inside_iff_sample :
    4094 + 5 < 2 ^ 64 ∧
      (∀ c ∈ readCopies ⟨8192, [fun _ => 7, fun _ => 8], 2⟩ 4094 5, c.Inside 5) ∧
      ∀ c ∈ writeCopies (fun _ _ => 0) ⟨8192, [fun _ => 7, fun _ => 8], 2⟩ 4094 5, c.Inside 5 :=
  have h := copies_inside_iff (fun _ _ => 0) ⟨8192, [fun _ => 7, fun _ => 8], 2⟩
    (show 4094 + 5 < 2 ^ 64 by decide)
  ⟨by decide, h.1.mpr (.inr (by decide)), h.2.mpr (.inr (by decide))⟩

/-- A byte in the second page is looked for behind the first one. -/
theorem copy_behind_first_page :
    (readCopies ⟨8192, [fun _ => 7, fun _ => 8], 2⟩ 4097 1).head? = some ⟨4097, 1, 0⟩ ∧
      ¬ ∀ c ∈ readCopies ⟨8192, [fun _ => 7, fun _ => 8], 2⟩ 4097 1, c.Inside 1 := by
  refine ⟨by decide +kernel, fun h => ?_⟩
  have hfirst := h ⟨4097, 1, 0⟩ (mem_of_mem_head? (by decide +kernel))
  exact absurd hfirst.no_wrap (by decide)

end LykOS.Tmpfs
