import LykOS.Arch.Types
import LykOS.Lib.Bytes
import LykOS.Lib.CString
import LykOS.Lib.Overlap
import Mathlib.Data.List.GetD
import Mathlib.Data.List.Range

/-!
# String functions on memory

`strncpy` of `lib/string.c`, byte by byte on a memory, with the addresses it writes. Its two loops share the
counter `n`, and the round of the first loop that copies the NUL leaves it as it is. So the second loop
writes one byte too many whenever the NUL is reached, and the call does what it is for exactly if it is not
(`strncpy_right_iff`).

`memmove` goes up or down by the order of its two addresses, so it never reads a byte that it has written;
`memcpy` and `strcat` may (`memcpy_eq_memmove_iff`, `strcat_returns_iff`).
-/

namespace LykOS.StringMem

open Overlap List

/-- A memory, and the addresses that have been written, in this order. -/
structure Written where
  mem : ℕ → UInt8
  addrs : List ℕ

def Written.store (w : Written) (a : ℕ) (v : UInt8) : Written :=
  ⟨Function.update w.mem a v, w.addrs ++ [a]⟩

/-- The loop `while (n && (*dest++ = *src++) != '\0') n--`, with `dest` and `n` at its end. -/
def copyLoop (w : Written) (dest src : ℕ) : ℕ → Written × ℕ × ℕ
  | 0 => (w, dest, 0)
  | n + 1 =>
    let c := w.mem src
    let w := w.store dest c
    if c ≠ 0 then copyLoop w (dest + 1) (src + 1) n else (w, dest + 1, n + 1)

/-- The loop `while (n--) *dest++ = '\0'`. -/
def padLoop (w : Written) (dest : ℕ) : ℕ → Written
  | 0 => w
  | n + 1 => padLoop (w.store dest 0) (dest + 1) n

/-- `strncpy(dest, src, n)`. -/
def strncpy (mem : ℕ → UInt8) (dest src n : ℕ) : Written :=
  let (w, dest, n) := copyLoop ⟨mem, []⟩ dest src n
  padLoop w dest n

/-- The string at an address. -/
def StringAt (mem : ℕ → UInt8) (p : ℕ) (s : CStr) : Prop :=
  ∀ i ≤ s.chars.length, mem (p + i) = s.chars.getD i 0

/-- The call writes `dest[0]` to `dest[n - 1]`, with the characters of the source and then NULs, and
leaves everything else. -/
structure StrncpyRight (mem : ℕ → UInt8) (dest src n : ℕ) (s : CStr) : Prop where
  written : ∀ a, a ∈ (strncpy mem dest src n).addrs ↔ dest ≤ a ∧ a < dest + n
  bytes : ∀ i < n, (strncpy mem dest src n).mem (dest + i) = s.chars.getD i 0
  kept : ∀ a, a < dest ∨ dest + n ≤ a → (strncpy mem dest src n).mem a = mem a

/-! ## The loops -/

section

variable {w : Written} {mem : ℕ → UInt8} {dest src n k : ℕ}

theorem copyLoop_eq (h : ∀ i < n, copyUp w.mem dest src i (src + i) ≠ 0) :
    copyLoop w dest src n =
      (⟨copyUp w.mem dest src n, w.addrs ++ List.range' dest n⟩, dest + n, 0) := by
  induction n generalizing w dest src with
  | zero => simp [copyLoop, copyUp]
  | succ n ih =>
    have h0 : w.mem src ≠ 0 := h 0 (Nat.succ_pos n)
    have hrest : ∀ i < n, copyUp (w.store dest (w.mem src)).mem (dest + 1) (src + 1) i
        (src + 1 + i) ≠ 0 := fun i hi => (copyUp_succ_read ..).trans_ne (h (i + 1) (by omega))
    rw [copyLoop, if_pos h0, ih hrest, copyUp_succ, range'_succ, Written.store, append_assoc,
      Nat.add_assoc dest, Nat.add_comm 1 n]
    rfl

theorem copyLoop_eq_nul (hk : k < n) (h : ∀ i < k, copyUp w.mem dest src i (src + i) ≠ 0)
    (hnul : copyUp w.mem dest src k (src + k) = 0) :
    copyLoop w dest src n = (⟨copyUp w.mem dest src (k + 1), w.addrs ++ List.range' dest (k + 1)⟩,
      dest + (k + 1), n - k) := by
  induction k generalizing w dest src n with
  | zero =>
    obtain ⟨n, rfl⟩ := Nat.exists_eq_succ_of_ne_zero (Nat.ne_of_gt hk)
    have h0 : w.mem src = 0 := hnul
    rw [copyLoop, if_neg (not_not.mpr h0)]
    rfl
  | succ k ih =>
    obtain ⟨n, rfl⟩ := Nat.exists_eq_succ_of_ne_zero (Nat.ne_of_gt (Nat.zero_lt_of_lt hk))
    have h0 : w.mem src ≠ 0 := h 0 (Nat.succ_pos k)
    have hrest : ∀ i < k, copyUp (w.store dest (w.mem src)).mem (dest + 1) (src + 1) i
        (src + 1 + i) ≠ 0 := fun i hi => (copyUp_succ_read ..).trans_ne (h (i + 1) (by omega))
    have hnul' : copyUp (w.store dest (w.mem src)).mem (dest + 1) (src + 1) k (src + 1 + k) = 0 :=
      (copyUp_succ_read ..).trans hnul
    rw [copyLoop, if_pos h0, ih (by omega) hrest hnul', copyUp_succ w.mem, range'_succ (s := dest),
      Written.store, append_assoc, Nat.add_assoc dest, Nat.add_comm 1 (k + 1), Nat.succ_sub_succ]
    rfl

theorem padLoop_addrs : (padLoop w dest n).addrs = w.addrs ++ List.range' dest n := by
  induction n generalizing w dest with
  | zero => simp [padLoop]
  | succ n ih =>
    rw [padLoop, ih, Written.store, range'_succ, append_assoc]
    rfl

theorem strncpy_of_no_nul (h : ∀ i < n, copyUp mem dest src i (src + i) ≠ 0) :
    strncpy mem dest src n = ⟨copyUp mem dest src n, List.range' dest n⟩ := by
  unfold strncpy
  rw [copyLoop_eq h]
  rfl

theorem strncpy_addrs_of_nul (hk : k < n) (h : ∀ i < k, copyUp mem dest src i (src + i) ≠ 0)
    (hnul : copyUp mem dest src k (src + k) = 0) :
    (strncpy mem dest src n).addrs = List.range' dest (n + 1) := by
  unfold strncpy
  rw [copyLoop_eq_nul hk h hnul]
  dsimp only
  rw [padLoop_addrs, nil_append, range'_append_1, show k + 1 + (n - k) = n + 1 by omega]

end

/-! ## What is read -/

section

variable {mem : ℕ → UInt8} {dest src n i : ℕ} {s : CStr}

theorem StringAt.char_ne (h : StringAt mem src s) (hi : i < s.chars.length) : mem (src + i) ≠ 0 := by
  rw [h i (Nat.le_of_lt hi), getD_eq_getElem _ _ hi]
  exact s.no_nul _ (getElem_mem hi)

theorem StringAt.nul (h : StringAt mem src s) : mem (src + s.chars.length) = 0 := by
  rw [h _ (Nat.le_refl _), getD_eq_default _ _ (Nat.le_refl _)]

/-- A copy that starts inside its source writes over the NUL before it comes to it. -/
theorem StringAt.read_ne_of_inside (h : StringAt mem src s) (hlt : src < dest)
    (hle : dest ≤ src + s.chars.length) (i : ℕ) : copyUp mem dest src i (src + i) ≠ 0 := by
  induction i using Nat.strong_induction_on with
  | _ i ih =>
    by_cases hfree : src + i < dest
    · rw [copyUp_read (Or.inr hfree)]
      exact h.char_ne (by omega)
    · rw [copyUp_reread hlt (by omega)]
      exact ih _ (by omega)

theorem StringAt.read_ne (h : StringAt mem src s) (hi : i < s.chars.length) :
    copyUp mem dest src i (src + i) ≠ 0 := by
  by_cases hfree : dest ≤ src ∨ src + i < dest
  · rw [copyUp_read hfree]
    exact h.char_ne hi
  · exact h.read_ne_of_inside (by omega) (by omega) i

end

/-- `strncpy` does what it is for exactly if it stops before the NUL of its source, and starts at or in
front of the source or runs only into characters that repeat. -/
theorem strncpy_right_iff {mem : ℕ → UInt8} {dest src n : ℕ} {s : CStr} (hs : StringAt mem src s) :
    StrncpyRight mem dest src n s ↔
      n ≤ s.chars.length ∧
        (dest ≤ src ∨ ∀ i, dest + i < src + n → mem (dest + i) = mem (src + i)) := by
  constructor
  · intro h
    have hn : n ≤ s.chars.length := by
      by_contra hlt
      by_cases hfree : dest ≤ src ∨ src + s.chars.length < dest
      · -- the NUL is read, and the byte behind the buffer is written
        have hnul : copyUp mem dest src s.chars.length (src + s.chars.length) = 0 := by
          rw [copyUp_read hfree, hs.nul]
        have haddrs := strncpy_addrs_of_nul (Nat.lt_of_not_le hlt) (fun i hi => hs.read_ne hi) hnul
        have hmem : dest + n ∈ (strncpy mem dest src n).addrs := by
          rw [haddrs, mem_range'_1]
          omega
        exact absurd ((h.written _).mp hmem).2 (Nat.lt_irrefl _)
      · -- the NUL has been overwritten, and is not copied
        have hread : ∀ i, copyUp mem dest src i (src + i) ≠ 0 :=
          hs.read_ne_of_inside (by omega) (by omega)
        have hbyte := h.bytes s.chars.length (Nat.lt_of_not_le hlt)
        rw [strncpy_of_no_nul fun i _ => hread i, getD_eq_default _ _ (Nat.le_refl _)] at hbyte
        exact hread _ ((copyUp_at (Nat.lt_of_not_le hlt)).symm.trans hbyte)
    have hrun : strncpy mem dest src n = _ :=
      strncpy_of_no_nul fun i hi => hs.read_ne (Nat.lt_of_lt_of_le hi hn)
    refine ⟨hn, copyUp_right_iff.mp fun i hi => ?_⟩
    have hbyte := h.bytes i hi
    rwa [hrun, ← hs i (by omega)] at hbyte
  · rintro ⟨hn, hover⟩
    have hrun : strncpy mem dest src n = _ :=
      strncpy_of_no_nul fun i hi => hs.read_ne (Nat.lt_of_lt_of_le hi hn)
    refine ⟨fun a => ?_, fun i hi => ?_, fun a ha => ?_⟩
    · rw [hrun, mem_range'_1]
    · rw [hrun, ← hs i (by omega)]
      exact copyUp_right_iff.mpr hover i hi
    · rw [hrun]
      exact copyUp_of_disjoint ha

/-! ## The bytes in a buffer -/

section

variable {w : Written} {mem : ℕ → UInt8} {dest src n : ℕ} {s : List UInt8}

theorem padLoop_mem : (padLoop w dest n).mem = Bytes.put w.mem dest (List.replicate n 0) := by
  induction n generalizing w dest with
  | zero =>
    funext a
    exact (Bytes.put_of_disjoint (by rw [length_replicate]; omega)).symm
  | succ n ih =>
    rw [padLoop, ih, Written.store, replicate_succ, Bytes.put_cons]

theorem copyLoop_pad (hs : ∀ i ≤ s.length, w.mem (src + i) = s.getD i 0) (hno : ∀ c ∈ s, c ≠ 0)
    (hfree : dest ≤ src ∨ src + s.length < dest) :
    (padLoop (copyLoop w dest src n).1 (copyLoop w dest src n).2.1 (copyLoop w dest src n).2.2).mem =
      Bytes.put w.mem dest (CStr.strncpyBytes s n) := by
  induction n generalizing w dest src s with
  | zero =>
    funext a
    exact (Bytes.put_of_disjoint (by simp [CStr.strncpyBytes]; omega)).symm
  | succ n ih =>
    have h0 := hs 0 (Nat.zero_le _)
    rw [Nat.add_zero] at h0
    rw [copyLoop]
    cases s with
    | nil =>
      rw [getD_nil] at h0
      rw [if_neg (not_not.mpr h0), padLoop_mem, CStr.strncpyBytes, Bytes.put_cons, h0, Written.store]
    | cons c s =>
      rw [getD_cons_zero] at h0
      rw [length_cons] at hs hfree
      have hrest : ∀ i ≤ s.length, (w.store dest (w.mem src)).mem (src + 1 + i) = s.getD i 0 := by
        intro i hi
        have hi' := hs (i + 1) (by omega)
        rw [getD_cons_succ] at hi'
        rw [← hi', show src + 1 + i = src + (i + 1) by omega]
        exact Function.update_of_ne (by omega) _ _
      rw [if_pos (by rw [h0]; exact hno c mem_cons_self),
        ih hrest (fun b hb => hno b (mem_cons_of_mem _ hb)) (by omega), CStr.strncpyBytes,
        Bytes.put_cons, Written.store, h0]

theorem strncpy_eq_put {s : CStr} (hs : StringAt mem src s)
    (hfree : dest ≤ src ∨ src + s.chars.length < dest) :
    (strncpy mem dest src n).mem = Bytes.put mem dest (CStr.strncpyBytes s.chars n) :=
  copyLoop_pad (w := ⟨mem, []⟩) hs s.no_nul hfree

end

def sampleMem : ℕ → UInt8
  | 0 => 97
  | 1 => 98
  | 2 => 0
  | _ => 7

def sampleStr : CStr := .ofList [97, 98] (Eq.refl true)

theorem sampleMem_string : StringAt sampleMem 0 sampleStr := by
  unfold StringAt
  decide

theorem strncpy_right_iff_sample :
    StringAt sampleMem 0 sampleStr ∧ StrncpyRight sampleMem 10 0 2 sampleStr :=
  ⟨sampleMem_string, (strncpy_right_iff sampleMem_string).mpr
    ⟨by decide, Or.inr fun i hi => by omega⟩⟩

/-- Three bytes of a string of two characters: the fourth byte of the buffer is written too. -/
theorem strncpy_overruns :
    (strncpy sampleMem 10 0 3).addrs = [10, 11, 12, 13] ∧
      sampleMem 13 = 7 ∧ (strncpy sampleMem 10 0 3).mem 13 = 0 ∧
      ¬ StrncpyRight sampleMem 10 0 3 sampleStr := by
  refine ⟨by decide, rfl, by decide, fun h => ?_⟩
  exact absurd (h.kept 13 (Or.inr (by decide))) (by decide)

/-! ## Moves -/

section

variable (mem : ℕ → UInt8) (dest src : ℕ)

/-- The loop `for (size_t i = 0; i < n; i++) pdest[i] = psrc[i]`. -/
def moveUp : ℕ → ℕ → UInt8
  | 0 => mem
  | n + 1 => Function.update (moveUp n) (u64 (dest + n)) (moveUp n (u64 (src + n)))

/-- The loop `for (size_t i = n; i > 0; i--) pdest[i - 1] = psrc[i - 1]`. -/
def moveDown (mem : ℕ → UInt8) : ℕ → ℕ → UInt8
  | 0 => mem
  | n + 1 => moveDown (Function.update mem (u64 (dest + n)) (mem (u64 (src + n)))) n

/-- `memmove(dest, src, n)`: the memory after it, and what it returns. -/
def memmove (n : ℕ) : (ℕ → UInt8) × ℕ :=
  if src > dest then (moveUp mem dest src n, dest)
  else if src < dest then (moveDown dest src mem n, dest)
  else (mem, dest)

/-- The bytes of the source are at `dest`, and everything else is as before. -/
structure MemmoveRight (n : ℕ) : Prop where
  bytes : ∀ i < n, (memmove mem dest src n).1 (dest + i) = mem (src + i)
  kept : ∀ a, a < dest ∨ dest + n ≤ a → (memmove mem dest src n).1 a = mem a

end

section

variable {mem : ℕ → UInt8} {dest src n : ℕ}

theorem moveUp_eq (hdest : dest + n ≤ 2 ^ 64) (hsrc : src + n ≤ 2 ^ 64) :
    moveUp mem dest src n = copyUp mem dest src n := by
  induction n with
  | zero => rfl
  | succ n ih =>
    rw [moveUp, ih (by omega) (by omega), u64_of_lt (by omega), u64_of_lt (by omega), copyUp]

theorem moveDown_eq (hdest : dest + n ≤ 2 ^ 64) (hsrc : src + n ≤ 2 ^ 64) :
    moveDown dest src mem n = copyDown mem dest src n := by
  induction n generalizing mem with
  | zero => rfl
  | succ n ih =>
    rw [moveDown, u64_of_lt (by omega), u64_of_lt (by omega), ih (by omega) (by omega), copyDown]

end

/-- However the ranges overlap, if neither of them wraps around. -/
theorem memmove_right (mem : ℕ → UInt8) {dest src n : ℕ} (hdest : dest + n ≤ 2 ^ 64)
    (hsrc : src + n ≤ 2 ^ 64) : MemmoveRight mem dest src n := by
  rcases Nat.lt_trichotomy dest src with hlt | rfl | hlt
  · have hrun : memmove mem dest src n = (copyUp mem dest src n, dest) := by
      rw [memmove, if_pos hlt, moveUp_eq hdest hsrc]
    refine ⟨fun i hi => ?_, fun a ha => ?_⟩
    · rw [hrun]
      exact copyUp_right_iff.mpr (Or.inl hlt.le) i hi
    · rw [hrun]
      exact copyUp_of_disjoint ha
  · have hrun : memmove mem dest dest n = (mem, dest) := by
      rw [memmove, if_neg (Nat.lt_irrefl _), if_neg (Nat.lt_irrefl _)]
    exact ⟨fun i _ => by rw [hrun], fun a _ => by rw [hrun]⟩
  · have hrun : memmove mem dest src n = (copyDown mem dest src n, dest) := by
      rw [memmove, if_neg (Nat.lt_asymm hlt), if_pos hlt, moveDown_eq hdest hsrc]
    refine ⟨fun i hi => ?_, fun a ha => ?_⟩
    · rw [hrun]
      exact copyDown_at hlt.le hi
    · rw [hrun]
      exact copyDown_of_disjoint ha

/-- Two bytes, one byte up and one byte down. -/
theorem memmove_right_sample :
    (1 + 2 ≤ 2 ^ 64 ∧ 0 + 2 ≤ 2 ^ 64) ∧ MemmoveRight sampleMem 1 0 2 ∧ MemmoveRight sampleMem 0 1 2 ∧
      (memmove sampleMem 1 0 2).1 2 = 98 :=
  have hup : 1 + 2 ≤ 2 ^ 64 := by decide
  have hlow : 0 + 2 ≤ 2 ^ 64 := by decide
  ⟨⟨hup, hlow⟩, memmove_right sampleMem hup hlow, memmove_right sampleMem hlow hup, by decide⟩

/-! ## Copies without a bound -/

/-- The loop `while ((*dest++ = *src++))` of `strcpy`, for at most `n` rounds. -/
def strcpy (mem : ℕ → UInt8) (dest src : ℕ) : ℕ → Option (ℕ → UInt8)
  | 0 => none
  | n + 1 =>
    let c := mem src
    let mem := Function.update mem dest c
    if c ≠ 0 then strcpy mem (dest + 1) (src + 1) n else some mem

/-- The loop `while (*dest) dest++`, for at most `n` rounds. -/
def endLoop (mem : ℕ → UInt8) (dest : ℕ) : ℕ → Option ℕ
  | 0 => none
  | n + 1 => if mem dest ≠ 0 then endLoop mem (dest + 1) n else some dest

/-- `strcat(dest, src)`. -/
def strcat (mem : ℕ → UInt8) (dest src n : ℕ) : Option (ℕ → UInt8) :=
  (endLoop mem dest n).bind fun dest => strcpy mem dest src n

/-- `memcpy(dest, src, n)`. -/
def memcpy (mem : ℕ → UInt8) (dest src n : ℕ) : (ℕ → UInt8) × ℕ := (moveUp mem dest src n, dest)

section

variable {w : Written} {mem mem' : ℕ → UInt8} {dest src n k : ℕ} {d s : CStr}

theorem strcpy_eq : strcpy w.mem dest src n =
    if (copyLoop w dest src n).2.2 = 0 then none else some (copyLoop w dest src n).1.mem := by
  induction n generalizing w dest src with
  | zero => rfl
  | succ n ih =>
    rw [strcpy, copyLoop]
    by_cases hc : w.mem src ≠ 0
    · rw [if_pos hc, if_pos hc, ← ih]
      rfl
    · rw [if_neg hc, if_neg hc]
      rfl

/-- The loop ends when it reads the NUL, unless it has written over it. -/
theorem strcpy_eq_some (hs : StringAt mem src s) : strcpy mem dest src n = some mem' ↔
    (dest ≤ src ∨ src + s.chars.length < dest) ∧ s.chars.length < n ∧
      mem' = copyUp mem dest src (s.chars.length + 1) := by
  rw [show mem = (⟨mem, []⟩ : Written).mem from rfl, strcpy_eq]
  by_cases hfree : dest ≤ src ∨ src + s.chars.length < dest
  · by_cases hn : s.chars.length < n
    · rw [copyLoop_eq_nul hn (fun i hi => hs.read_ne hi) ((copyUp_read hfree).trans hs.nul),
        if_neg (by dsimp only; omega)]
      simp [hfree, hn, eq_comm]
    · rw [copyLoop_eq fun i hi => hs.read_ne (by omega)]
      simp [hn]
  · rw [copyLoop_eq fun i _ => hs.read_ne_of_inside (by omega) (by omega) i]
    simp [hfree]

theorem endLoop_eq (hne : ∀ i < k, mem (dest + i) ≠ 0) (hnul : mem (dest + k) = 0) :
    endLoop mem dest n = if k < n then some (dest + k) else none := by
  induction n generalizing dest k with
  | zero => rfl
  | succ n ih =>
    rw [endLoop]
    cases k with
    | zero => simp [show mem dest = 0 from hnul]
    | succ k =>
      rw [if_pos (show mem dest ≠ 0 from hne 0 (Nat.succ_pos k)), ih (k := k)]
      · simp only [Nat.succ_lt_succ_iff, Nat.add_assoc, Nat.add_comm 1]
      · intro i hi
        rw [Nat.add_assoc, Nat.add_comm 1]
        exact hne (i + 1) (by omega)
      · rwa [Nat.add_assoc, Nat.add_comm 1]

end

/-- `strcat` returns exactly if the end of its destination is not inside the source, and then has appended
the source and changed nothing else. -/
theorem strcat_returns_iff {mem : ℕ → UInt8} {dest src : ℕ} {d s : CStr} (hd : StringAt mem dest d)
    (hs : StringAt mem src s) :
    ((∃ n, (strcat mem dest src n).isSome) ↔
        dest + d.chars.length ≤ src ∨ src + s.chars.length < dest + d.chars.length) ∧
      ∀ n mem', strcat mem dest src n = some mem' → StringAt mem' (dest + d.chars.length) s ∧
        ∀ a, a < dest + d.chars.length ∨ dest + d.chars.length + s.chars.length < a → mem' a = mem a := by
  have hrun : ∀ n mem', strcat mem dest src n = some mem' ↔ d.chars.length < n ∧
      strcpy mem (dest + d.chars.length) src n = some mem' := fun n mem' => by
    rw [strcat, endLoop_eq (fun i hi => hd.char_ne hi) hd.nul]
    split_ifs with hn <;> simp [hn]
  constructor
  · constructor
    · rintro ⟨n, hn⟩
      obtain ⟨mem', hmem'⟩ := Option.isSome_iff_exists.mp hn
      exact ((strcpy_eq_some hs).mp ((hrun n mem').mp hmem').2).1
    · intro hfree
      have hcopy := (strcpy_eq_some (n := d.chars.length + s.chars.length + 1) hs).mpr
        ⟨hfree, by omega, rfl⟩
      exact ⟨_, Option.isSome_iff_exists.mpr ⟨_, (hrun _ _).mpr ⟨by omega, hcopy⟩⟩⟩
  · intro n mem' h
    obtain ⟨hfree, -, rfl⟩ := (strcpy_eq_some hs).mp ((hrun n mem').mp h).2
    refine ⟨fun i hi => ?_, fun a ha => copyUp_of_disjoint (by omega)⟩
    rw [copyUp_at (by omega), copyUp_read (by omega), hs i hi]

theorem strcat_returns_iff_sample :
    StringAt sampleMem 0 sampleStr ∧ ¬ ∃ n, (strcat sampleMem 0 0 n).isSome :=
  ⟨sampleMem_string, mt (strcat_returns_iff sampleMem_string sampleMem_string).1.mp (by decide)⟩

/-- `memcpy` does what `memmove` does exactly if it starts at or in front of its source, or what it runs into
repeats. -/
theorem memcpy_eq_memmove_iff (mem : ℕ → UInt8) {dest src n : ℕ} (hdest : dest + n ≤ 2 ^ 64)
    (hsrc : src + n ≤ 2 ^ 64) : memcpy mem dest src n = memmove mem dest src n ↔
      dest ≤ src ∨ ∀ i, dest + i < src + n → mem (dest + i) = mem (src + i) := by
  rcases Nat.lt_trichotomy dest src with hlt | rfl | hlt
  · exact iff_of_true (if_pos hlt).symm (Or.inl hlt.le)
  · refine iff_of_true ?_ (Or.inl le_rfl)
    rw [memcpy, memmove, if_neg (Nat.lt_irrefl _), if_neg (Nat.lt_irrefl _), moveUp_eq hdest hsrc,
      copyUp_self]
  · rw [memcpy, memmove, if_neg (Nat.lt_asymm hlt), if_pos hlt, moveUp_eq hdest hsrc, moveDown_eq hdest hsrc,
      Prod.mk.injEq, and_iff_left rfl, copyUp_eq_copyDown_iff hlt.le]

theorem memcpy_eq_memmove_iff_sample :
    (1 + 2 ≤ 2 ^ 64 ∧ 0 + 2 ≤ 2 ^ 64) ∧ memcpy sampleMem 1 0 2 ≠ memmove sampleMem 1 0 2 :=
  have hup : 1 + 2 ≤ 2 ^ 64 := by decide
  have hlow : 0 + 2 ≤ 2 ^ 64 := by decide
  ⟨⟨hup, hlow⟩, mt (memcpy_eq_memmove_iff sampleMem hup hlow).mp fun h =>
    absurd (h.resolve_left (by decide) 0 (by decide)) (by decide)⟩

end LykOS.StringMem
