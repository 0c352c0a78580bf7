import Mathlib.Algebra.Ring.Int.Defs
import Mathlib.Algebra.Ring.Nat
import Mathlib.Data.List.TakeWhile

/-!
# Strings that end in a NUL, and their components

A string is the list of its characters, none of which is NUL. A buffer is the list of the characters in
front of its terminator, so that the terminator is at the index `length`. A NUL that is written into a
buffer ends the strings in it earlier (`strAt`). `components` are the non-empty pieces of a list between
separators.
-/

/-- A string: its characters in front of the NUL. -/
structure CStr where
  chars : List UInt8
  no_nul : ∀ c ∈ chars, c ≠ 0
  deriving DecidableEq

namespace CStr

open List

/-- The string of a list, if that has no NUL. -/
def ofList (l : List UInt8) (h : l.all (· != 0) = true) : CStr where
  chars := l
  no_nul c hc := by simpa using all_eq_true.mp h c hc

theorem chars_inj {s t : CStr} (h : s.chars = t.chars) : s = t := by
  cases s
  cases t
  cases h
  rfl

/-! ## Comparison -/

/-- `strcmp`; the end of a list is its NUL. -/
def strcmp : List UInt8 → List UInt8 → ℤ
  | [], [] => 0
  | [], b :: _ => 0 - (b.toNat : ℤ)
  | a :: _, [] => a.toNat
  | a :: s, b :: t => if a = b then strcmp s t else (a.toNat : ℤ) - b.toNat

def strncmp : List UInt8 → List UInt8 → ℕ → ℤ
  | _, _, 0 => 0
  | [], [], _ + 1 => 0
  | [], b :: _, _ + 1 => 0 - (b.toNat : ℤ)
  | a :: _, [], _ + 1 => a.toNat
  | a :: s, b :: t, n + 1 => if a = b then strncmp s t n else (a.toNat : ℤ) - b.toNat

theorem toNat_ne_zero {a : UInt8} (h : a ≠ 0) : (a.toNat : ℤ) ≠ 0 := by
  intro hz
  exact h (UInt8.toNat_inj.mp (by simpa using hz))

theorem toNat_sub_ne_zero {a b : UInt8} (h : a ≠ b) : (a.toNat : ℤ) - b.toNat ≠ 0 := by
  intro hz
  exact h (UInt8.toNat_inj.mp (by omega))

variable {mem s t : List UInt8} {p : ℕ}

theorem strncmp_eq_zero (hs : ∀ c ∈ s, c ≠ 0) (ht : ∀ c ∈ t, c ≠ 0) (n : ℕ) :
    strncmp s t n = 0 ↔ s.take n = t.take n := by
  induction n generalizing s t with
  | zero => simp [strncmp]
  | succ n ih =>
    match s, t with
    | [], [] => simp [strncmp]
    | [], b :: t =>
      have hb := toNat_ne_zero (ht b mem_cons_self)
      simp only [strncmp, take_nil, take_succ_cons]
      constructor
      · intro h
        omega
      · intro h
        cases h
    | a :: s, [] =>
      have ha := toNat_ne_zero (hs a mem_cons_self)
      simp only [strncmp, take_nil, take_succ_cons]
      exact ⟨fun h => absurd h ha, fun h => by cases h⟩
    | a :: s, b :: t =>
      have hrest := ih (fun c hc => hs c (mem_cons_of_mem _ hc))
        (fun c hc => ht c (mem_cons_of_mem _ hc))
      simp only [strncmp, take_succ_cons, List.cons.injEq]
      by_cases hab : a = b
      · rw [if_pos hab, hrest]
        exact ⟨fun h => ⟨hab, h⟩, fun h => h.2⟩
      · rw [if_neg hab]
        exact ⟨fun h => absurd h (toNat_sub_ne_zero hab), fun h => absurd h.1 hab⟩

theorem strcmp_eq_strncmp (t : List UInt8) {n : ℕ} (hn : s.length < n) : strcmp s t = strncmp s t n := by
  induction s generalizing t n with
  | nil =>
    obtain ⟨n, rfl⟩ := Nat.exists_eq_succ_of_ne_zero (Nat.ne_of_gt hn)
    cases t <;> rfl
  | cons a s ih =>
    obtain ⟨n, rfl⟩ := Nat.exists_eq_succ_of_ne_zero (Nat.ne_zero_of_lt hn)
    cases t with
    | nil => rfl
    | cons b t => rw [strcmp, strncmp, ih t (Nat.lt_of_succ_lt_succ hn)]

theorem strcmp_eq_zero (hs : ∀ c ∈ s, c ≠ 0) (ht : ∀ c ∈ t, c ≠ 0) : strcmp s t = 0 ↔ s = t := by
  rw [strcmp_eq_strncmp t (n := s.length + t.length + 1) (by omega), strncmp_eq_zero hs ht,
    take_of_length_le (by omega), take_of_length_le (by omega)]

/-! ## Strings in raw memory

The list is what the memory holds from a pointer on. It need not have a NUL: a function that comes to
its end has no result. -/

/-- `strlen(p)`. -/
def memStrlen : List UInt8 → Option ℕ
  | [] => none
  | c :: mem => if c = 0 then some 0 else (memStrlen mem).map (· + 1)

/-- `strcmp(s, p)` for a string `s` and a pointer `p`. -/
def memStrcmp : List UInt8 → List UInt8 → Option ℤ
  | _, [] => none
  | [], c :: _ => some (0 - (c.toNat : ℤ))
  | a :: s, c :: mem => if a = c then memStrcmp s mem else some ((a.toNat : ℤ) - c.toNat)

/-- `strncmp(p, t, n)` for a pointer `p` and a string `t`. -/
def memStrncmp : List UInt8 → List UInt8 → ℕ → Option ℤ
  | _, _, 0 => some 0
  | [], _, _ + 1 => none
  | c :: _, [], _ + 1 => some c.toNat
  | c :: mem, b :: t, n + 1 => if c = b then memStrncmp mem t n else some ((c.toNat : ℤ) - b.toNat)

/-- The bytes that `strncpy` writes for the string `src`. The NUL of `src` is not counted, so that there is
one byte more than `n` if it is reached. -/
def strncpyBytes : List UInt8 → ℕ → List UInt8
  | _, 0 => []
  | [], n + 1 => 0 :: List.replicate (n + 1) 0
  | c :: src, n + 1 => c :: strncpyBytes src n

/-- `strncpy(dest, src, n)`: what becomes of `dest`, if it is long enough. -/
def strncpy (dest src : List UInt8) (n : ℕ) : Option (List UInt8) :=
  let bytes := strncpyBytes src n
  if bytes.length ≤ dest.length then some (bytes ++ dest.drop bytes.length) else none

theorem memStrncmp_append (ht : ∀ c ∈ t, c ≠ 0) (mem : List UInt8) (n : ℕ) :
    memStrncmp (s ++ 0 :: mem) t n = some (strncmp s t n) := by
  induction n generalizing s t with
  | zero => simp only [memStrncmp, strncmp]
  | succ n ih =>
    cases s with
    | nil =>
      cases t with
      | nil => rfl
      | cons b t =>
        rw [nil_append, memStrncmp, if_neg (ht b mem_cons_self).symm]
        rfl
    | cons a s =>
      cases t with
      | nil => rfl
      | cons b t =>
        rw [cons_append, memStrncmp, strncmp, ih fun c hc => ht c (mem_cons_of_mem _ hc)]
        split <;> rfl

theorem strncpyBytes_of_le {src : List UInt8} {n : ℕ} (h : n ≤ src.length) :
    strncpyBytes src n = src.take n := by
  induction n generalizing src with
  | zero => simp only [strncpyBytes, take_zero]
  | succ n ih =>
    cases src with
    | nil => exact absurd h (Nat.not_succ_le_zero n)
    | cons a src => rw [strncpyBytes, take_succ_cons, ih (Nat.le_of_succ_le_succ h)]

theorem memStrlen_append (hs : ∀ c ∈ s, c ≠ 0) (mem : List UInt8) :
    memStrlen (s ++ 0 :: mem) = some s.length := by
  induction s with
  | nil => rfl
  | cons a s ih =>
    rw [cons_append, memStrlen, if_neg (hs a mem_cons_self),
      ih fun c hc => hs c (mem_cons_of_mem _ hc)]
    rfl

theorem memStrcmp_append (hs : ∀ c ∈ s, c ≠ 0) (mem : List UInt8) :
    memStrcmp s (t ++ 0 :: mem) = some (strcmp s t) := by
  induction s generalizing t with
  | nil => cases t <;> rfl
  | cons a s ih =>
    cases t with
    | nil =>
      rw [nil_append, memStrcmp, if_neg (hs a mem_cons_self)]
      rfl
    | cons b t =>
      rw [cons_append, memStrcmp, strcmp, ih fun c hc => hs c (mem_cons_of_mem _ hc)]
      split <;> rfl

/-! ## Strings in buffers -/

/-- `*p`: the terminator is behind the last character, and nothing is behind the terminator. -/
def charAt (buf : List UInt8) (p : ℕ) : Option UInt8 := if p = buf.length then some 0 else buf[p]?

/-- The string at `p`. -/
def strAt (buf : List UInt8) (p : ℕ) : CStr where
  chars := (buf.drop p).takeWhile (· ≠ 0)
  no_nul c hc := by simpa using mem_takeWhile_imp hc

def strchr (buf : List UInt8) (p : ℕ) (c : UInt8) : Option ℕ :=
  ((strAt buf p).chars.findIdx? (· == c)).map (p + ·)

/-- The string at `p`, if there is a NUL behind it. -/
def memStr (mem : List UInt8) (p : ℕ) : Option CStr := if 0 ∈ mem.drop p then some (strAt mem p) else none

theorem strAt_of_drop {rest : List UInt8} (hs : ∀ c ∈ s, c ≠ 0) (h : mem.drop p = s ++ 0 :: rest) :
    (strAt mem p).chars = s := by
  unfold strAt
  dsimp only
  rw [h, takeWhile_append_of_pos fun d hd => by simpa using hs d hd,
    takeWhile_cons_of_neg (by simp), List.append_nil]

theorem memStr_of_drop {rest : List UInt8} (hs : ∀ c ∈ s, c ≠ 0) (h : mem.drop p = s ++ 0 :: rest) :
    ∃ str, memStr mem p = some str ∧ str.chars = s := by
  refine ⟨strAt mem p, if_pos ?_, strAt_of_drop hs h⟩
  rw [h]
  exact mem_append_right _ mem_cons_self

theorem memStr_eq_some_iff {s : CStr} :
    memStr mem p = some s ↔ ∃ rest, mem.drop p = s.chars ++ 0 :: rest := by
  constructor
  · intro h
    unfold memStr at h
    split at h
    · rename_i hmem
      cases h
      obtain ⟨front, rest, hdrop, hfront⟩ := eq_append_cons_of_mem hmem
      have hnul : ∀ c ∈ front, c ≠ 0 := fun c hc hz => hfront (hz ▸ hc)
      exact ⟨rest, by rw [strAt_of_drop hnul hdrop, hdrop]⟩
    · cases h
  · rintro ⟨rest, h⟩
    obtain ⟨str, hstr, hchars⟩ := memStr_of_drop s.no_nul h
    rw [hstr, chars_inj hchars]

theorem memStr_eq_some {s : CStr} :
    memStr mem 0 = some s ↔ ∃ rest, mem = s.chars ++ 0 :: rest := memStr_eq_some_iff

/-- `while (*p == c) p++`. -/
def skip (buf : List UInt8) (p : ℕ) (c : UInt8) : ℕ := p + ((buf.drop p).takeWhile (· == c)).length

section

variable {buf : List UInt8} {p : ℕ} (hbuf : ∀ c ∈ buf, c ≠ 0)

include hbuf

theorem strAt_chars : (strAt buf p).chars = buf.drop p :=
  takeWhile_eq_self_iff.mpr fun c hc => by simpa using hbuf c (mem_of_mem_drop hc)

theorem charAt_eq_zero (hp : p ≤ buf.length) : charAt buf p = some 0 ↔ buf.drop p = [] := by
  unfold charAt
  rw [drop_eq_nil_iff]
  by_cases h : p = buf.length
  · rw [if_pos h]
    exact ⟨fun _ => by omega, fun _ => rfl⟩
  · rw [if_neg h]
    refine ⟨fun h0 => ?_, fun hle => by omega⟩
    obtain ⟨hlt, h0⟩ := List.getElem?_eq_some_iff.mp h0
    exact absurd h0 (hbuf _ (getElem_mem hlt))

end

variable {buf : List UInt8} {p : ℕ}

theorem charAt_ne_none (hp : p ≤ buf.length) : charAt buf p ≠ none := by
  unfold charAt
  by_cases h : p = buf.length
  · rw [if_pos h]
    exact Option.some_ne_none 0
  · rw [if_neg h, getElem?_eq_getElem (by omega)]
    exact Option.some_ne_none _

theorem le_of_charAt {a : UInt8} (h : charAt buf p = some a) : p ≤ buf.length := by
  unfold charAt at h
  split_ifs at h with hp
  · omega
  · obtain ⟨hlt, -⟩ := List.getElem?_eq_some_iff.mp h
    omega

theorem drop_length_takeWhile {α : Type*} (q : α → Bool) (l : List α) :
    l.drop (l.takeWhile q).length = l.dropWhile q := by
  induction l with
  | nil => rfl
  | cons a l ih =>
    by_cases ha : q a = true
    · rw [takeWhile_cons_of_pos ha, dropWhile_cons_of_pos ha, length_cons, drop_succ_cons, ih]
    · rw [takeWhile_cons_of_neg ha, dropWhile_cons_of_neg ha, length_nil, drop_zero]

theorem drop_skip (buf : List UInt8) (p : ℕ) (c : UInt8) :
    buf.drop (skip buf p c) = (buf.drop p).dropWhile (· == c) := by
  unfold skip
  rw [← drop_drop, drop_length_takeWhile]

theorem skip_le (hp : p ≤ buf.length) (c : UInt8) : p ≤ skip buf p c ∧ skip buf p c ≤ buf.length := by
  have hle := (takeWhile_sublist (· == c) (l := buf.drop p)).length_le
  rw [length_drop] at hle
  unfold skip
  omega

section

variable {buf comp tail : List UInt8} {p : ℕ} {c : UInt8}

theorem strchr_eq (hbuf : ∀ d ∈ buf, d ≠ 0) (hdrop : buf.drop p = comp ++ tail)
    (hcomp : ∀ d ∈ comp, d ≠ c) (htail : tail = [] ∨ ∃ t, tail = c :: t) :
    strchr buf p c = if tail = [] then none else some (p + comp.length) := by
  unfold strchr
  rw [strAt_chars hbuf, hdrop]
  rcases htail with rfl | ⟨t, rfl⟩
  · rw [List.append_nil, if_pos rfl, Option.map_eq_none_iff, findIdx?_eq_none_iff]
    intro d hd
    simpa using hcomp d hd
  · rw [if_neg (cons_ne_nil c t)]
    refine Option.map_eq_some_iff.mpr ⟨comp.length, ?_, rfl⟩
    have hnone : comp.findIdx? (· == c) = none :=
      findIdx?_eq_none_iff.mpr fun d hd => by simpa using hcomp d hd
    rw [findIdx?_append, hnone, findIdx?_cons]
    simp

theorem strAt_set (hcomp : ∀ d ∈ comp, d ≠ 0) (hdrop : buf.drop p = comp ++ c :: tail) :
    (strAt (buf.set (p + comp.length) 0) p).chars = comp := by
  have hset : (buf.set (p + comp.length) 0).drop p = comp ++ 0 :: tail := by
    rw [drop_set, if_neg (by omega), Nat.add_sub_cancel_left, hdrop,
      set_append_right _ _ (Nat.le_refl _), Nat.sub_self, set_cons_zero]
  unfold strAt
  dsimp only
  rw [hset, takeWhile_append_of_pos fun d hd => by simpa using hcomp d hd,
    takeWhile_cons_of_neg (by simp), List.append_nil]

theorem set_set_self (hdrop : buf.drop p = comp ++ c :: tail) :
    (buf.set (p + comp.length) 0).set (p + comp.length) c = buf := by
  have hget : buf[p + comp.length]? = some c := by
    rw [← getElem?_drop, hdrop, getElem?_append_right (Nat.le_refl _), Nat.sub_self]
    rfl
  obtain ⟨hlt, hc⟩ := List.getElem?_eq_some_iff.mp hget
  rw [set_set, ← hc, set_getElem_self]

end

/-! ## The last occurrence of a character -/

/-- The loop of `strrchr`, from position `i` on. -/
def strrchrLoop (c : UInt8) : ℕ → Option ℕ → List UInt8 → Option ℕ
  | _, ret, [] => ret
  | i, ret, a :: s => strrchrLoop c (i + 1) (if a = c then some i else ret) s

def strrchr (s : CStr) (c : UInt8) : Option ℕ := strrchrLoop c 0 none s.chars

def take (s : CStr) (n : ℕ) : CStr where
  chars := s.chars.take n
  no_nul c hc := s.no_nul c (mem_of_mem_take hc)

def drop (s : CStr) (n : ℕ) : CStr where
  chars := s.chars.drop n
  no_nul c hc := s.no_nul c (mem_of_mem_drop hc)

variable {c : UInt8} {name parent : List UInt8} {α : Type*}

theorem strrchrLoop_of_not_mem {s : List UInt8} (h : c ∉ s) (i : ℕ) (ret : Option ℕ) :
    strrchrLoop c i ret s = ret := by
  induction s generalizing i with
  | nil => rfl
  | cons a s ih =>
    rw [mem_cons, not_or] at h
    unfold strrchrLoop
    rw [if_neg (Ne.symm h.1)]
    exact ih h.2 (i + 1)

theorem strrchrLoop_append (h : c ∉ name) (parent : List UInt8) (i : ℕ) (ret : Option ℕ) :
    strrchrLoop c i ret (parent ++ c :: name) = some (i + parent.length) := by
  induction parent generalizing i ret with
  | nil =>
    rw [nil_append, strrchrLoop, if_pos rfl]
    exact strrchrLoop_of_not_mem h (i + 1) (some i)
  | cons a parent ih =>
    rw [cons_append, strrchrLoop, ih, length_cons]
    congr 1
    omega

theorem strrchr_append {s : CStr} (hs : s.chars = parent ++ c :: name) (h : c ∉ name) :
    strrchr s c = some parent.length := by
  unfold strrchr
  rw [hs, strrchrLoop_append h, Nat.zero_add]

theorem strAt_behind {s : CStr} (hs : s.chars = parent ++ c :: name) :
    (strAt s.chars (parent.length + 1)).chars = name := by
  rw [strAt_chars s.no_nul, hs, ← drop_drop, drop_left]
  rfl

theorem last_cases [DecidableEq α] (c : α) (l : List α) :
    c ∉ l ∨ ∃ parent name, l = parent ++ c :: name ∧ c ∉ name := by
  induction l with
  | nil => exact Or.inl not_mem_nil
  | cons a l ih =>
    rcases ih with h | ⟨parent, name, rfl, hname⟩
    · by_cases ha : a = c
      · exact Or.inr ⟨[], l, by rw [ha]; rfl, h⟩
      · refine Or.inl fun hmem => ?_
        rcases mem_cons.mp hmem with heq | hmem
        · exact ha heq.symm
        · exact h hmem
    · exact Or.inr ⟨a :: parent, name, rfl, hname⟩

theorem last_unique {parent' name' : List UInt8} (h : parent ++ c :: name = parent' ++ c :: name')
    (hname : c ∉ name) (hname' : c ∉ name') : parent = parent' ∧ name = name' := by
  have hchr := strrchrLoop_append hname parent 0 none
  rw [h, strrchrLoop_append hname' parent' 0 none, Option.some.injEq, Nat.zero_add, Nat.zero_add] at hchr
  obtain ⟨hparent, htail⟩ := append_inj h hchr.symm
  exact ⟨hparent, (List.cons.inj htail).2⟩

/-! ## Components -/

theorem getLast?_append_ne_nil {l l' : List α} (h : l' ≠ []) : (l ++ l').getLast? = l'.getLast? := by
  rw [getLast?_append, getLast?_eq_some_getLast h]
  rfl

theorem getLast?_drop {l : List α} {p : ℕ} (h : l.drop p ≠ []) :
    l.getLast? = (l.drop p).getLast? := by
  have happ := getLast?_append_ne_nil (l := l.take p) h
  rwa [take_append_drop] at happ

section

variable {α : Type*} [DecidableEq α] (sep : α)

/-- The non-empty pieces between separators. -/
def components (l : List α) : List (List α) := (l.splitOn sep).filter (· ≠ [])

@[simp] theorem components_nil : components sep [] = [] := by
  unfold components
  rw [splitOn_nil]
  rfl

theorem components_append_sep {l : List α} (hl : ∀ c ∈ l, c ≠ sep) (rest : List α) :
    components sep (l ++ sep :: rest) =
      if l = [] then components sep rest else l :: components sep rest := by
  have hsplit : (l ++ sep :: rest).splitOn sep = l :: rest.splitOn sep :=
    splitOnP_append_cons_of_forall_mem (fun c hc => by simpa using hl c hc) sep (by simp) rest
  unfold components
  rw [hsplit, filter_cons]
  by_cases hnil : l = []
  · simp [hnil]
  · simp [hnil]

theorem components_cons_sep (l : List α) : components sep (sep :: l) = components sep l :=
  components_append_sep sep (l := []) (fun _ h => by cases h) l

theorem components_of_forall {l : List α} (hl : ∀ c ∈ l, c ≠ sep) (hne : l ≠ []) :
    components sep l = [l] := by
  have hsplit : l.splitOn sep = [l] :=
    splitOnP_eq_singleton (fun c hc => by simpa using hl c hc)
  unfold components
  rw [hsplit]
  simp [hne]

theorem components_dropWhile (l : List α) :
    components sep (l.dropWhile (· == sep)) = components sep l := by
  induction l with
  | nil => rfl
  | cons c l ih =>
    by_cases hc : c = sep
    · subst hc
      rw [dropWhile_cons_of_pos (by simp), ih, components_cons_sep]
    · rw [dropWhile_cons_of_neg (by simpa using hc)]

theorem components_cases (l : List α) :
    (l.dropWhile (· == sep) = [] ∧ components sep l = []) ∨
    ∃ comp tail, l.dropWhile (· == sep) = comp ++ tail ∧ comp ≠ [] ∧ (∀ c ∈ comp, c ≠ sep) ∧
      (tail = [] ∨ ∃ t, tail = sep :: t) ∧ components sep l = comp :: components sep tail := by
  rw [← components_dropWhile sep l]
  rcases hl : l.dropWhile (· == sep) with - | ⟨a, r⟩
  · exact Or.inl ⟨rfl, components_nil sep⟩
  · -- the first character that is left is no separator
    have ha : a ≠ sep := by
      have hhead := dropWhile_get_zero_not (p := (· == sep)) l (by rw [hl]; exact Nat.succ_pos _)
      simpa [hl] using hhead
    let comp := (a :: r).takeWhile (· != sep)
    let tail := (a :: r).dropWhile (· != sep)
    have happ : comp ++ tail = a :: r := takeWhile_append_dropWhile
    have hcomp : ∀ c ∈ comp, c ≠ sep := fun c hc => by simpa using mem_takeWhile_imp hc
    have hne : comp ≠ [] := by
      unfold comp
      rw [takeWhile_cons_of_pos (by simpa using ha)]
      exact cons_ne_nil _ _
    rcases htail : tail with - | ⟨b, t⟩
    · refine Or.inr ⟨comp, [], by rw [← htail, happ], hne, hcomp, Or.inl rfl, ?_⟩
      rw [← happ, htail, List.append_nil, components_of_forall sep hcomp hne, components_nil]
    · obtain rfl : b = sep := by
        have hhead := dropWhile_get_zero_not (p := (· != sep)) (a :: r)
          (by unfold tail at htail; rw [htail]; exact Nat.succ_pos _)
        unfold tail at htail
        simpa [htail] using hhead
      refine Or.inr ⟨comp, b :: t, by rw [← htail, happ], hne, hcomp, Or.inr ⟨t, rfl⟩, ?_⟩
      rw [← happ, htail, components_append_sep b hcomp, if_neg hne, components_cons_sep]

theorem mem_components {l c : List α} (h : c ∈ components sep l) :
    c ≠ [] ∧ sep ∉ c ∧ ∀ a ∈ c, a ∈ l := by
  induction hn : l.length using Nat.strong_induction_on generalizing l with
  | _ n ih =>
    rcases components_cases sep l with ⟨-, hnil⟩ | ⟨comp, tail, hdrop, hne, hcomp, -, heq⟩
    · rw [hnil] at h
      cases h
    · have hsub : ∀ a ∈ comp ++ tail, a ∈ l :=
        fun a ha => (dropWhile_suffix _).subset (hdrop ▸ ha)
      have hlen : comp.length + tail.length ≤ l.length := by
        rw [← length_append, ← hdrop]
        exact length_dropWhile_le _ _
      rw [heq] at h
      rcases mem_cons.mp h with rfl | h
      · exact ⟨hne, fun hsep => hcomp sep hsep rfl, fun a ha => hsub a (mem_append_left _ ha)⟩
      · have hpos := length_pos_iff.mpr hne
        obtain ⟨hc, hsep, hmem⟩ := ih tail.length (by omega) h rfl
        exact ⟨hc, hsep, fun a ha => hsub a (mem_append_right _ (hmem a ha))⟩

theorem components_length_cons (a : α) (l : List α) :
    (components sep l).length ≤ (components sep (a :: l)).length ∧
      (components sep (a :: l)).length ≤ (components sep l).length + 1 := by
  by_cases ha : a = sep
  · rw [ha, components_cons_sep]
    exact ⟨Nat.le_refl _, Nat.le_succ _⟩
  · have hsplit : (a :: l).splitOn sep = (l.splitOn sep).modifyHead (a :: ·) := by
      rw [List.splitOn, splitOnP_cons_eq_if_modifyHead, if_neg (by simpa using ha)]
      rfl
    unfold components
    rw [hsplit]
    rcases l.splitOn sep with - | ⟨h, t⟩
    · exact ⟨Nat.le_refl _, Nat.le_succ _⟩
    · rw [modifyHead_cons, filter_cons, filter_cons]
      by_cases hh : h = [] <;> simp [hh]

theorem components_length_le (l : List α) : (components sep l).length ≤ l.length := by
  induction l with
  | nil => exact Nat.le_refl _
  | cons a l ih => exact Nat.le_trans (components_length_cons sep a l).2 (Nat.succ_le_succ ih)

theorem components_length_lt {l : List α} (h : l.getLast? = some sep) :
    (components sep l).length < l.length := by
  induction l with
  | nil => cases h
  | cons a l ih =>
    cases l with
    | nil =>
      obtain rfl : a = sep := Option.some.inj h
      rw [components_cons_sep, components_nil]
      exact Nat.zero_lt_one
    | cons b l =>
      rw [getLast?_cons_cons] at h
      exact Nat.lt_of_le_of_lt (components_length_cons sep a (b :: l)).2 (Nat.succ_lt_succ (ih h))

theorem components_length_drop_le (l : List α) (k : ℕ) :
    (components sep (l.drop k)).length ≤ (components sep l).length := by
  induction l generalizing k with
  | nil => rw [drop_nil]
  | cons a l ih =>
    cases k with
    | zero => exact Nat.le_refl _
    | succ k =>
      rw [drop_succ_cons]
      exact Nat.le_trans (ih k) (components_length_cons sep a l).1

theorem tail_ne_nil_iff {l comp tail : List α} (hl : l.dropWhile (· == sep) = comp ++ tail)
    (hne : comp ≠ []) (hcomp : ∀ c ∈ comp, c ≠ sep) (htail : tail = [] ∨ ∃ t, tail = sep :: t) :
    tail ≠ [] ↔ l.getLast? = some sep ∨ components sep tail ≠ [] := by
  have hlast : l.getLast? = (comp ++ tail).getLast? := by
    have hsplit := takeWhile_append_dropWhile (p := (· == sep)) (l := l)
    rw [hl] at hsplit
    rw [← hsplit]
    exact getLast?_append_ne_nil (by simp [hne])
  rw [hlast]
  rcases htail with rfl | ⟨t, rfl⟩
  · refine ⟨fun h => absurd rfl h, fun h => ?_⟩
    rcases h with h | h
    · rw [List.append_nil] at h
      exact absurd rfl (hcomp sep (mem_of_getLast? h))
    · exact absurd (components_nil sep) h
  · refine ⟨fun _ => ?_, fun _ => cons_ne_nil _ _⟩
    by_cases hc : components sep (sep :: t) = []
    · left
      rw [getLast?_append_ne_nil (cons_ne_nil _ _)]
      rcases components_cases sep (sep :: t) with ⟨hall, -⟩ | ⟨_, _, -, -, -, -, heq⟩
      · obtain ⟨x, hx⟩ := Option.isSome_iff_exists.mp (by simp : ((sep :: t).getLast?).isSome = true)
        have hxs := dropWhile_eq_nil_iff.mp hall x (mem_of_getLast? hx)
        rw [hx]
        simpa using hxs
      · rw [heq] at hc
        cases hc
    · exact Or.inr hc

end

/-! ## Components of a buffer -/

section

variable {buf : List UInt8} {p : ℕ} {sep : UInt8} (hbuf : ∀ c ∈ buf, c ≠ 0) (hp : p ≤ buf.length)

include hbuf hp

theorem exists_charAt (h : buf.drop p ≠ []) : ∃ a, charAt buf p = some a ∧ a ≠ 0 := by
  obtain ⟨a, ha⟩ := Option.ne_none_iff_exists'.mp (charAt_ne_none hp)
  refine ⟨a, ha, ?_⟩
  rintro rfl
  exact h ((charAt_eq_zero hbuf hp).mp ha)

theorem exists_component {c : List UInt8} {cs : List (List UInt8)}
    (h : components sep (buf.drop p) = c :: cs) :
    (∃ a, charAt buf p = some a ∧ a ≠ 0) ∧ c ≠ [] ∧ (∀ a ∈ c, a ≠ sep) ∧
    ∃ tail, buf.drop (skip buf p sep) = c ++ tail ∧ (tail = [] ∨ ∃ t, tail = sep :: t) ∧
      buf.drop (skip buf p sep + c.length) = tail ∧ components sep tail = cs ∧
      (tail ≠ [] ↔ buf.getLast? = some sep ∨ cs ≠ []) := by
  have hend : buf.drop p ≠ [] := by
    intro hnil
    rw [hnil, components_nil] at h
    cases h
  have hlast := getLast?_drop hend
  rcases components_cases sep (buf.drop p) with ⟨-, hnil⟩ | ⟨comp, tail, hdrop, hne, hcomp, htail, heq⟩
  · rw [hnil] at h
    cases h
  · rw [heq, List.cons.injEq] at h
    obtain ⟨rfl, rfl⟩ := h
    have hiff := tail_ne_nil_iff sep hdrop hne hcomp htail
    rw [← drop_skip] at hdrop
    refine ⟨exists_charAt hbuf hp hend, hne, hcomp, tail, hdrop, htail, ?_, rfl, ?_⟩
    · rw [← drop_drop, hdrop, drop_left]
    · rw [hiff, hlast]

omit hbuf hp in
theorem drop_skip_of_no_component (h : components sep (buf.drop p) = []) :
    buf.drop (skip buf p sep) = [] := by
  rw [drop_skip]
  rcases components_cases sep (buf.drop p) with ⟨hnil, -⟩ | ⟨_, _, -, -, -, -, heq⟩
  · exact hnil
  · rw [heq] at h
    cases h

omit hbuf hp in
theorem getLast?_of_no_component (h : components sep (buf.drop p) = []) (hne : buf.drop p ≠ []) :
    buf.getLast? = some sep := by
  have hnil := drop_skip_of_no_component h
  rw [drop_skip, dropWhile_eq_nil_iff] at hnil
  rw [getLast?_drop hne, getLast?_eq_some_getLast hne, Option.some.injEq]
  simpa using hnil _ (getLast_mem hne)

end

end CStr
