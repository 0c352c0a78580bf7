import LykOS.Fs.Vfs.Mount
import Mathlib.Data.Option.Basic

/-!
# Normalized paths

`path_normalize` of `lib/path.c`, on a memory that ends: a function that reads or writes behind the end has
no result. The loop writes behind where it reads, so it can be used in place. What it writes is
`normalizeChars` (`normalizeLoop_eq`).
-/

namespace LykOS.Pathname

open CStr Vfs
open List hiding max

/-- `'.'`. -/
def dot : UInt8 := 46

/-- The loop of `path_normalize`, with `p` and `n` as positions: the memory and `n` at its end. -/
def normalizeLoop : ℕ → List UInt8 → ℕ → ℕ → Option (List UInt8 × ℕ)
  | 0, _, _, _ => none
  | fuel + 1, mem, p, n => do
    let c ← mem[p]?
    if c = 0 then return (mem, n)
    else if c = slash then
      guard (n < mem.length)
      let mem := mem.set n slash
      normalizeLoop fuel mem (skip mem p slash) (n + 1)
    else if c = dot ∧ (mem[p + 1]? = some slash ∨ mem[p + 1]? = some 0) then
      normalizeLoop fuel mem (if mem[p + 1]? = some slash then p + 2 else p + 1) n
    else
      guard (n < mem.length)
      normalizeLoop fuel (mem.set n c) (p + 1) (n + 1)

/-- `path_normalize(path, normalized)`. -/
def pathNormalize (mem : List UInt8) (path normalized : ℕ) : Option (List UInt8) := do
  let (mem, n) ← normalizeLoop (mem.length + 1) mem path normalized
  -- the last character is read only if there are two
  let n := if normalized + 1 < n ∧ mem[n - 1]? = some slash then n - 1 else n
  guard (n < mem.length)
  return mem.set n 0

/-- What the loop writes for a string. -/
def normalizeChars : List UInt8 → List UInt8
  | [] => []
  | c :: s =>
    if c = slash then slash :: normalizeChars (s.dropWhile (· == slash))
    else if c = dot ∧ (s = [] ∨ s.head? = some slash) then normalizeChars (s.drop 1)
    else c :: normalizeChars s
  termination_by s => s.length
  decreasing_by
    · have := (dropWhile_sublist (· == slash) (l := s)).length_le
      simp only [length_cons]
      omega
    · simp only [length_drop, length_cons]
      omega
    · simp

/-! ## The loop in place -/

section

variable {mem rest s : List UInt8} {p n : ℕ}

variable {a : UInt8}

theorem get_of_drop (h : mem.drop p = a :: rest) : mem[p]? = some a := by
  rw [← head?_drop, h]
  rfl

theorem drop_succ (h : mem.drop p = a :: rest) : mem.drop (p + 1) = rest := by
  rw [← drop_drop, h]
  rfl

theorem drop_behind (h : mem.drop p = s ++ a :: rest) : mem.drop (p + s.length + 1) = rest := by
  rw [Nat.add_assoc, ← drop_drop, h, ← drop_drop, drop_left]
  rfl

theorem lt_length_of_drop (h : mem.drop p = s ++ a :: rest) : p + s.length < mem.length := by
  have hlen := congrArg List.length h
  rw [length_drop, length_append, length_cons] at hlen
  omega

theorem char_of_drop (hs : ∀ c ∈ s, c ≠ 0) (h : mem.drop p = s ++ 0 :: rest) :
    (mem[p]? = some slash ↔ s.head? = some slash) ∧ (mem[p]? = some 0 ↔ s = []) := by
  cases s with
  | nil =>
    rw [get_of_drop h]
    exact ⟨by decide, by simp⟩
  | cons a s =>
    rw [get_of_drop h]
    refine ⟨Iff.rfl, fun h0 => ?_, fun h0 => by cases h0⟩
    exact absurd (Option.some.inj h0) (hs a mem_cons_self)

/-- The place `n` is not in the part of the string that is still to be read. -/
def Clear (p n len : ℕ) : Prop := n ≤ p ∨ p + len < n

theorem drop_set_of_gt (h : mem.drop p = s ++ 0 :: rest) (hn : p + s.length < n) :
    ∃ rest', (mem.set n a).drop p = s ++ 0 :: rest' := by
  obtain ⟨k, rfl⟩ := Nat.exists_eq_add_of_lt hn
  refine ⟨rest.set k a, ?_⟩
  rw [drop_set, if_neg (by omega), h, show p + s.length + k + 1 - p = s.length + (k + 1) by omega,
    set_append_right _ _ (by omega), Nat.add_sub_cancel_left, set_cons_succ]

theorem drop_set_slash (h : mem.drop p = slash :: (s ++ 0 :: rest))
    (hn : Clear p n (slash :: s).length) :
    ∃ rest', (mem.set n slash).drop p = slash :: (s ++ 0 :: rest') := by
  rcases hn with hle | hgt
  · rcases Nat.lt_or_eq_of_le hle with hlt | rfl
    · exact ⟨rest, by rw [drop_set_of_lt hlt, h]⟩
    · exact ⟨rest, by
        rw [drop_set, if_neg (Nat.lt_irrefl n), Nat.sub_self, h, set_cons_zero]⟩
  · exact drop_set_of_gt (s := slash :: s) h hgt

theorem drop_set_copied (h : mem.drop p = a :: (s ++ 0 :: rest)) (hn : Clear p n (a :: s).length) :
    ∃ rest', (mem.set n a).drop (p + 1) = s ++ 0 :: rest' := by
  rcases hn with hle | hgt
  · exact ⟨rest, (drop_set_of_lt (Nat.lt_succ_of_le hle)).trans (drop_succ h)⟩
  · obtain ⟨rest', hrest⟩ := drop_set_of_gt (a := a) (s := a :: s) h hgt
    exact ⟨rest', drop_succ hrest⟩

theorem skip_slash (h : mem.drop p = slash :: (s ++ 0 :: rest)) :
    mem.drop (skip mem p slash) = s.dropWhile (· == slash) ++ 0 :: rest ∧
      skip mem p slash + (s.dropWhile (· == slash)).length = p + 1 + s.length := by
  have hrest : (0 :: rest : List UInt8).dropWhile (· == slash) = 0 :: rest :=
    dropWhile_cons_of_neg (by decide)
  have hdrop : mem.drop (skip mem p slash) = s.dropWhile (· == slash) ++ 0 :: rest := by
    rw [drop_skip, h, dropWhile_cons_of_pos (by decide), dropWhile_append, hrest]
    split_ifs with he
    · rw [List.isEmpty_iff.mp he, nil_append]
    · rfl
  refine ⟨hdrop, ?_⟩
  have hle := (skip_le (Nat.le_of_lt (lt_length_of_drop (s := []) h)) slash).2
  have hlen := congrArg List.length hdrop
  have hlen' := congrArg List.length h
  simp only [length_drop, length_append, length_cons] at hlen hlen'
  omega

theorem skip_dot (hs : ∀ a ∈ s, a ≠ 0) (h : mem.drop (p + 1) = s ++ 0 :: rest)
    (hend : s = [] ∨ s.head? = some slash) :
    ∃ k, (if mem[p + 1]? = some slash then p + 2 else p + 1) = p + k ∧
      mem.drop (p + k) = s.drop 1 ++ 0 :: rest ∧ 0 < k ∧ k + (s.drop 1).length = s.length + 1 := by
  obtain ⟨hslash, -⟩ := char_of_drop hs h
  rcases hend with rfl | hhead
  · refine ⟨1, if_neg fun h => ?_, h, Nat.one_pos, rfl⟩
    rw [hslash] at h
    cases h
  · obtain ⟨t, rfl⟩ := head?_eq_some_iff.mp hhead
    refine ⟨2, if_pos (hslash.mpr rfl), drop_succ h, Nat.two_pos, ?_⟩
    rw [drop_one, tail_cons, length_cons]
    omega

/-- The memory after a part of it has been written, from `n` on. -/
def Written (mem mem' : List UInt8) (n : ℕ) (out : List UInt8) (stop : ℕ) : Prop :=
  mem'.length = mem.length ∧ mem'.take (n + out.length) = mem.take n ++ out ∧
    mem'.drop stop = mem.drop stop

theorem Written.cons {mem' out : List UInt8} {stop : ℕ} (hn : n < mem.length) (hstop : n < stop)
    (h : Written (mem.set n a) mem' (n + 1) out stop) : Written mem mem' n (a :: out) stop := by
  obtain ⟨hlen, htake, hdrop⟩ := h
  refine ⟨by rw [hlen, length_set], ?_, by rw [hdrop, drop_set_of_lt hstop]⟩
  have hset : (mem.set n a).take (n + 1) = mem.take n ++ [a] := by
    rw [take_add_one, take_set_of_le (Nat.le_refl n), getElem?_set_self hn]
    rfl
  rw [length_cons, show n + (out.length + 1) = n + 1 + out.length by omega, htake, hset,
    append_assoc, singleton_append]

end

theorem normalizeChars_sublist (s : List UInt8) : (normalizeChars s).Sublist s := by
  fun_induction normalizeChars s with
  | case1 => exact List.Sublist.refl _
  | case2 s ih => exact (ih.trans (dropWhile_sublist _)).cons_cons slash
  | case3 c s _ _ ih => exact (ih.trans (drop_sublist 1 s)).cons c
  | case4 c s _ _ ih => exact ih.cons_cons c

theorem normalizeLoop_eq (s : List UInt8) : ∀ {mem rest : List UInt8} {p n stop fuel : ℕ},
    (∀ c ∈ s, c ≠ 0) → mem.drop p = s ++ 0 :: rest → Clear p n s.length →
    p + s.length ≤ stop → n + s.length ≤ stop → stop ≤ mem.length → s.length < fuel →
    ∃ mem', normalizeLoop fuel mem p n = some (mem', n + (normalizeChars s).length) ∧
      Written mem mem' n (normalizeChars s) stop := by
  fun_induction normalizeChars s with
  | case1 =>
    intro mem rest p n stop fuel _ hdrop _ _ _ _ hfuel
    obtain ⟨fuel, rfl⟩ := Nat.exists_eq_succ_of_ne_zero (Nat.ne_of_gt hfuel)
    refine ⟨mem, ?_, rfl, by simp, rfl⟩
    rw [normalizeLoop, get_of_drop hdrop]
    rfl
  | case2 s ih =>
    intro mem rest p n stop fuel hs hdrop hn hpstop hnstop hstop hfuel
    obtain ⟨fuel, rfl⟩ := Nat.exists_eq_succ_of_ne_zero (Nat.ne_of_gt (Nat.zero_lt_of_lt hfuel))
    rw [cons_append] at hdrop
    obtain ⟨rest', hdrop'⟩ := drop_set_slash hdrop hn
    obtain ⟨hskip, hpos⟩ := skip_slash hdrop'
    have hlen := (dropWhile_sublist (· == slash) (l := s)).length_le
    unfold Clear at hn
    rw [length_cons] at hfuel hn hpstop hnstop
    obtain ⟨mem', hloop, hwritten⟩ := ih (fun c hc => hs c (mem_cons_of_mem _
      ((dropWhile_sublist _).subset hc))) hskip
      (show Clear _ (n + 1) _ by unfold Clear; omega) (show _ ≤ stop by omega)
      (show n + 1 + _ ≤ stop by omega) (by rwa [length_set]) (show _ < fuel by omega)
    refine ⟨mem', ?_, hwritten.cons (by omega) (by omega)⟩
    rw [normalizeLoop, get_of_drop hdrop]
    simp only [Option.bind_eq_bind, Option.bind_some, if_neg (show slash ≠ 0 by decide), if_true,
      guard, if_pos (show n < mem.length by omega), pure]
    rw [hloop, length_cons, Nat.add_right_comm, Nat.add_assoc]
  | case3 c s hc hdot ih =>
    intro mem rest p n stop fuel hs hdrop hn hpstop hnstop hstop hfuel
    obtain ⟨fuel, rfl⟩ := Nat.exists_eq_succ_of_ne_zero (Nat.ne_of_gt (Nat.zero_lt_of_lt hfuel))
    rw [cons_append] at hdrop
    unfold Clear at hn
    rw [length_cons] at hfuel hn hpstop hnstop
    have hnext := drop_succ hdrop
    have hs' : ∀ a ∈ s, a ≠ 0 := fun a ha => hs a (mem_cons_of_mem _ ha)
    have hfollow : c = dot ∧ (mem[p + 1]? = some slash ∨ mem[p + 1]? = some 0) := by
      obtain ⟨hslash, hnul⟩ := char_of_drop hs' hnext
      rw [hslash, hnul]
      exact ⟨hdot.1, hdot.2.symm⟩
    obtain ⟨k, hk, hdropk, hpos, hlenk⟩ := skip_dot hs' hnext hdot.2
    obtain ⟨mem', hloop, hwritten⟩ := ih (fun a ha => hs' a (mem_of_mem_drop ha)) hdropk
      (show Clear _ n _ by unfold Clear; omega) (show _ ≤ stop by omega) (show _ ≤ stop by omega)
      hstop (show _ < fuel by omega)
    refine ⟨mem', ?_, hwritten⟩
    rw [normalizeLoop, get_of_drop hdrop]
    simp only [Option.bind_eq_bind, Option.bind_some, if_neg (hs c mem_cons_self), if_neg hc,
      if_pos hfollow]
    rw [hk, hloop]
  | case4 c s hc hdot ih =>
    intro mem rest p n stop fuel hs hdrop hn hpstop hnstop hstop hfuel
    obtain ⟨fuel, rfl⟩ := Nat.exists_eq_succ_of_ne_zero (Nat.ne_of_gt (Nat.zero_lt_of_lt hfuel))
    rw [cons_append] at hdrop
    have hnext := drop_succ hdrop
    have hfollow : ¬ (c = dot ∧ (mem[p + 1]? = some slash ∨ mem[p + 1]? = some 0)) := by
      obtain ⟨hslash, hnul⟩ := char_of_drop (fun a ha => hs a (mem_cons_of_mem _ ha)) hnext
      rw [hslash, hnul]
      exact fun h => hdot ⟨h.1, h.2.symm⟩
    obtain ⟨rest', hdrop'⟩ := drop_set_copied hdrop hn
    unfold Clear at hn
    rw [length_cons] at hfuel hn hpstop hnstop
    obtain ⟨mem', hloop, hwritten⟩ := ih (fun a ha => hs a (mem_cons_of_mem _ ha)) hdrop'
      (show Clear _ (n + 1) _ by unfold Clear; omega) (show _ ≤ stop by omega)
      (show n + 1 + _ ≤ stop by omega) (by rwa [length_set]) (show _ < fuel by omega)
    refine ⟨mem', ?_, hwritten.cons (by omega) (by omega)⟩
    rw [normalizeLoop, get_of_drop hdrop]
    simp only [Option.bind_eq_bind, Option.bind_some, if_neg (hs c mem_cons_self), if_neg hc,
      if_neg hfollow, guard, if_pos (show n < mem.length by omega), pure]
    rw [hloop, length_cons, Nat.add_right_comm, Nat.add_assoc]

/-- What `path_normalize` makes of a string: what the loop writes, without a slash at the end. -/
def normalize (s : List UInt8) : List UInt8 :=
  let out := normalizeChars s
  if 1 < out.length ∧ out.getLast? = some slash then out.dropLast else out

theorem prefix_normalize (s : List UInt8) : normalize s <+: normalizeChars s := by
  unfold normalize
  dsimp only
  split_ifs
  · exact dropLast_prefix _
  · exact prefix_refl _

theorem normalize_no_nul (s : CStr) : ∀ c ∈ normalize s.chars, c ≠ 0 := fun c hc =>
  s.no_nul c ((normalizeChars_sublist _).subset ((prefix_normalize _).subset hc))

theorem normalize_concat {s out : List UInt8} (h : normalizeChars s = out ++ [slash]) (hne : out ≠ []) :
    normalize s = out := by
  have hpos := length_pos_iff.mpr hne
  simp only [normalize, h, length_append, length_singleton, getLast?_concat]
  rw [if_pos ⟨by omega, trivial⟩, dropLast_concat]

theorem normalize_of_last_ne {s : List UInt8} (h : (normalizeChars s).getLast? ≠ some slash) :
    normalize s = normalizeChars s := if_neg fun hc => h hc.2

theorem pathNormalize_spec {s mem rest : List UInt8} {p n : ℕ} (hs : ∀ c ∈ s, c ≠ 0)
    (hdrop : mem.drop p = s ++ 0 :: rest) (hclear : Clear p n s.length)
    (hroom : n + s.length < mem.length) :
    ∃ mem' rest', pathNormalize mem p n = some mem' ∧ mem'.length = mem.length ∧
      mem'.take n = mem.take n ∧ mem'.drop n = normalize s ++ 0 :: rest' ∧
        ∀ q, p + s.length < q → n + s.length < q → mem'.drop q = mem.drop q := by
  have hlen := lt_length_of_drop hdrop
  obtain ⟨mem₁, hloop, hlen₁, htake, htail⟩ := normalizeLoop_eq s hs hdrop hclear
    (Nat.le_max_left _ (n + s.length)) (Nat.le_max_right _ _)
    (show max _ _ ≤ mem.length by omega) (show s.length < mem.length + 1 by omega)
  have hle := (normalizeChars_sublist s).length_le
  set out := normalizeChars s with hout
  have hpre : normalize s <+: out := prefix_normalize s
  have hprele := hpre.length_le
  have hdrop₁ : mem₁.drop n = out ++ mem₁.drop (n + out.length) := by
    have hsplit := take_append_drop (n + out.length) mem₁
    have hn : (mem.take n).length = n := by rw [length_take]; omega
    rw [htake] at hsplit
    conv_lhs => rw [← hsplit, append_assoc]
    exact drop_left' hn
  -- the slash at the end is found in memory
  have hend : (if n + 1 < n + out.length ∧ mem₁[n + out.length - 1]? = some slash
      then n + out.length - 1 else n + out.length) = n + (normalize s).length := by
    have hcond : (n + 1 < n + out.length ∧ mem₁[n + out.length - 1]? = some slash) ↔
        1 < out.length ∧ out.getLast? = some slash := by
      rw [Nat.add_lt_add_iff_left]
      refine and_congr_right fun hlt => ?_
      rw [Nat.add_sub_assoc (by omega), ← getElem?_drop, hdrop₁,
        getElem?_append_left (by omega), getLast?_eq_getElem?]
    rw [if_congr hcond rfl rfl]
    unfold normalize
    rw [← hout]
    dsimp only
    split_ifs with h
    · rw [length_dropLast]
      omega
    · rfl
  obtain ⟨a, r, hr⟩ : ∃ a r, mem₁.drop n = normalize s ++ a :: r := by
    obtain ⟨x, hx⟩ := hpre
    rw [hdrop₁, ← hx, append_assoc]
    have hne : x ++ mem₁.drop (n + (normalize s ++ x).length) ≠ [] := by
      refine append_ne_nil_of_right_ne_nil _ fun hnil => ?_
      rw [drop_eq_nil_iff, hx] at hnil
      omega
    obtain ⟨a, r, har⟩ := exists_cons_of_ne_nil hne
    exact ⟨a, r, by rw [har]⟩
  refine ⟨mem₁.set (n + (normalize s).length) 0, r, ?_, ?_, ?_, ?_, fun q hpq hnq => ?_⟩
  · unfold pathNormalize
    rw [hloop, Option.bind_eq_bind, Option.bind_some]
    dsimp only
    rw [hend]
    simp only [guard, if_pos (show n + (normalize s).length < mem₁.length by omega), pure,
      Option.bind_eq_bind, Option.bind_some]
  · rw [length_set, hlen₁]
  · have hn : (mem.take n).length = n := by rw [length_take]; omega
    have hpart := congrArg (List.take n) htake
    rw [take_take, Nat.min_eq_left (by omega), take_left' hn] at hpart
    rw [take_set_of_le (by omega), hpart]
  · rw [drop_set, if_neg (by omega), hr, Nat.add_sub_cancel_left,
      set_append_right _ _ (Nat.le_refl _), Nat.sub_self, set_cons_zero]
  · rw [drop_set_of_lt (by omega)]
    have hq := congrArg (List.drop (q - max (p + s.length) (n + s.length))) htail
    rwa [drop_drop, drop_drop, Nat.add_sub_cancel' (by omega)] at hq

theorem pathNormalize_memStr {mem : List UInt8} {p n : ℕ} {s : CStr} (hs : memStr mem p = some s)
    (hbuf : n ≤ p ∨ p + s.chars.length < n ∧ n + s.chars.length < mem.length) :
    ∃ mem', pathNormalize mem p n = some mem' ∧
      memStr mem' n = some ⟨normalize s.chars, normalize_no_nul s⟩ := by
  obtain ⟨rest, hdrop⟩ := memStr_eq_some_iff.mp hs
  have hlen := lt_length_of_drop hdrop
  obtain ⟨mem', rest', hrun, -, -, hdrop', -⟩ := pathNormalize_spec s.no_nul hdrop
    (hbuf.imp id And.left) (by omega)
  exact ⟨mem', hrun, memStr_eq_some_iff.mpr ⟨rest', hdrop'⟩⟩

/-! ## Paths of components -/

/-- A component that is copied as it is: not empty, and the dot of `./` is not its last character. -/
structure GoodComp (c : List UInt8) : Prop where
  ne_nil : c ≠ []
  no_nul : ∀ a ∈ c, a ≠ 0
  no_slash : ∀ a ∈ c, a ≠ slash
  no_dot : c.getLast? ≠ some dot

def joined (cs : List (List UInt8)) : List UInt8 := List.intercalate [slash] cs

/-- The components, perhaps with `./` in front and a slash behind. -/
def decorated (dotted trailing : Bool) (cs : List (List UInt8)) : List UInt8 :=
  (if dotted then [dot, slash] else []) ++ joined cs ++ if trailing then [slash] else []

theorem joined_singleton (c : List UInt8) : joined [c] = c := intercalate_singleton

theorem joined_cons {c : List UInt8} {cs : List (List UInt8)} (h : cs ≠ []) :
    joined (c :: cs) = c ++ slash :: joined cs := by
  unfold joined
  rw [intercalate_cons_of_ne_nil h, append_assoc]
  rfl

theorem joined_concat {c : List UInt8} {cs : List (List UInt8)} (h : cs ≠ []) :
    joined (cs ++ [c]) = joined cs ++ slash :: c := by
  induction cs with
  | nil => exact absurd rfl h
  | cons d cs ih =>
    rw [cons_append, joined_cons (by simp)]
    by_cases hcs : cs = []
    · rw [hcs, nil_append, joined_singleton, joined_singleton]
    · rw [ih hcs, joined_cons hcs, append_assoc, cons_append]

theorem joined_append_last (cs : List (List UInt8)) (c m : List UInt8) :
    joined (cs ++ [c ++ m]) = joined (cs ++ [c]) ++ m := by
  by_cases h : cs = []
  · rw [h, nil_append, nil_append, joined_singleton, joined_singleton]
  · rw [joined_concat h, joined_concat h, append_assoc, cons_append]

section

variable {cs : List (List UInt8)} {t : List UInt8}

theorem joined_no_nul (h : ∀ c ∈ cs, GoodComp c) : ∀ a ∈ joined cs, a ≠ 0 := by
  induction cs with
  | nil => exact fun a ha => nomatch ha
  | cons c cs ih =>
    have hc := (h c mem_cons_self).no_nul
    by_cases hcs : cs = []
    · rw [hcs, joined_singleton]
      exact hc
    · rw [joined_cons hcs]
      intro a ha
      rcases mem_append.mp ha with ha | ha
      · exact hc a ha
      · rcases mem_cons.mp ha with rfl | ha
        · decide
        · exact ih (fun d hd => h d (mem_cons_of_mem _ hd)) a ha

theorem normalizeChars_comp {c : List UInt8} (hslash : ∀ a ∈ c, a ≠ slash)
    (hdot : c.getLast? ≠ some dot) (t : List UInt8) :
    normalizeChars (c ++ t) = c ++ normalizeChars t := by
  induction c with
  | nil => rfl
  | cons a c ih =>
    have hrest : c.getLast? ≠ some dot := by
      cases c with
      | nil => exact fun h => nomatch h
      | cons b c => rwa [getLast?_cons_cons] at hdot
    have hfollow : ¬ (a = dot ∧ (c ++ t = [] ∨ (c ++ t).head? = some slash)) := by
      rintro ⟨rfl, hnext⟩
      cases c with
      | nil => exact hdot rfl
      | cons b c =>
        rcases hnext with h | h
        · cases h
        · exact hslash b (by simp) (Option.some.inj h)
    rw [cons_append, normalizeChars, if_neg (hslash a mem_cons_self), if_neg hfollow,
      ih (fun b hb => hslash b (mem_cons_of_mem _ hb)) hrest, cons_append]

theorem normalizeChars_slash {s : List UInt8} (h : s.head? ≠ some slash) :
    normalizeChars (slash :: s) = slash :: normalizeChars s := by
  have hdrop : s.dropWhile (· == slash) = s := by
    cases s with
    | nil => rfl
    | cons a s =>
      refine dropWhile_cons_of_neg fun ha => h ?_
      rw [beq_iff_eq.mp ha]
      rfl
  rw [normalizeChars, if_pos rfl, hdrop]

theorem head?_joined_ne (h : ∀ c ∈ cs, GoodComp c) (hne : cs ≠ []) (t : List UInt8) :
    (joined cs ++ t).head? ≠ some slash := by
  obtain ⟨c, cs, rfl⟩ := exists_cons_of_ne_nil hne
  have hc := h c mem_cons_self
  obtain ⟨a, c, rfl⟩ := exists_cons_of_ne_nil hc.ne_nil
  have hhead : (joined ((a :: c) :: cs) ++ t).head? = some a := by
    by_cases hcs : cs = []
    · rw [hcs, joined_singleton]
      rfl
    · rw [joined_cons hcs]
      rfl
  rw [hhead]
  exact fun e => hc.no_slash a mem_cons_self (Option.some.inj e)

theorem normalizeChars_joined (h : ∀ c ∈ cs, GoodComp c) (t : List UInt8) :
    normalizeChars (joined cs ++ t) = joined cs ++ normalizeChars t := by
  induction cs with
  | nil => rfl
  | cons c cs ih =>
    have hc := h c mem_cons_self
    have hrest : ∀ d ∈ cs, GoodComp d := fun d hd => h d (mem_cons_of_mem _ hd)
    by_cases hcs : cs = []
    · rw [hcs, joined_singleton]
      exact normalizeChars_comp hc.no_slash hc.no_dot t
    · rw [joined_cons hcs, append_assoc, cons_append,
        normalizeChars_comp hc.no_slash hc.no_dot, normalizeChars_slash (head?_joined_ne hrest hcs t),
        ih hrest, append_assoc, cons_append]

theorem joined_ne_nil (h : ∀ c ∈ cs, GoodComp c) (hne : cs ≠ []) : joined cs ≠ [] := by
  obtain ⟨c, cs, rfl⟩ := exists_cons_of_ne_nil hne
  have hc := (h c mem_cons_self).ne_nil
  by_cases hcs : cs = []
  · rwa [hcs, joined_singleton]
  · rw [joined_cons hcs]
    exact append_ne_nil_of_right_ne_nil _ (cons_ne_nil _ _)

theorem length_le_joined (h : ∀ c ∈ cs, GoodComp c) : cs.length ≤ (joined cs).length := by
  induction cs with
  | nil => exact Nat.le_refl _
  | cons c cs ih =>
    have hc := length_pos_iff.mpr (h c mem_cons_self).ne_nil
    have hrest := ih fun d hd => h d (mem_cons_of_mem _ hd)
    by_cases hcs : cs = []
    · rw [hcs, joined_singleton]
      exact hc
    · rw [joined_cons hcs, length_append, length_cons, length_cons]
      omega

theorem getLast?_joined_ne (h : ∀ c ∈ cs, GoodComp c) : (joined cs).getLast? ≠ some slash := by
  induction cs with
  | nil => exact fun h => nomatch h
  | cons c cs ih =>
    have hc := h c mem_cons_self
    by_cases hcs : cs = []
    · rw [hcs, joined_singleton]
      exact fun hlast => hc.no_slash slash (mem_of_getLast? hlast) rfl
    · have hrest : ∀ d ∈ cs, GoodComp d := fun d hd => h d (mem_cons_of_mem _ hd)
      rw [joined_cons hcs, getLast?_append_ne_nil (cons_ne_nil _ _), getLast?_cons_of_ne_nil]
      · exact ih hrest
      · exact joined_ne_nil hrest hcs

theorem normalizeChars_decorated (h : ∀ c ∈ cs, GoodComp c) (dotted trailing : Bool) :
    normalizeChars (decorated dotted trailing cs) = joined cs ++ if trailing then [slash] else [] := by
  have hbody : normalizeChars (joined cs ++ if trailing then [slash] else []) =
      joined cs ++ if trailing then [slash] else [] := by
    rw [normalizeChars_joined h]
    cases trailing <;> simp [normalizeChars]
  cases dotted with
  | false =>
    unfold decorated
    rw [if_neg (by decide), nil_append, hbody]
  | true =>
    unfold decorated
    rw [if_pos rfl, append_assoc, cons_append, cons_append, nil_append,
      normalizeChars, if_neg (by decide), if_pos ⟨rfl, Or.inr rfl⟩, drop_one, tail_cons, hbody]

theorem decorated_no_nul (h : ∀ c ∈ cs, GoodComp c) (dotted trailing : Bool) :
    ∀ a ∈ decorated dotted trailing cs, a ≠ 0 := by
  have hjoined := joined_no_nul h
  intro a ha
  unfold decorated at ha
  rcases mem_append.mp ha with ha | ha
  · rcases mem_append.mp ha with ha | ha
    · cases dotted with
      | false => cases ha
      | true =>
        rw [if_pos rfl, mem_cons, mem_singleton] at ha
        rcases ha with rfl | rfl <;> decide
    · exact hjoined a ha
  · cases trailing with
    | false => cases ha
    | true =>
      rw [mem_singleton.mp ha]
      decide

theorem normalize_decorated (h : ∀ c ∈ cs, GoodComp c) (hne : cs ≠ []) (dotted trailing : Bool) :
    normalize (decorated dotted trailing cs) = joined cs := by
  have hchars := normalizeChars_decorated h dotted trailing
  cases trailing with
  | true => exact normalize_concat hchars (joined_ne_nil h hne)
  | false =>
    have hjoined : normalizeChars (decorated dotted false cs) = joined cs :=
      hchars.trans (List.append_nil _)
    rw [normalize_of_last_ne (hjoined ▸ getLast?_joined_ne h), hjoined]

theorem pathNormalize_decorated (h : ∀ c ∈ cs, GoodComp c) (hne : cs ≠ []) (dotted trailing : Bool)
    {mem rest : List UInt8} {p : ℕ} (hdrop : mem.drop p = decorated dotted trailing cs ++ 0 :: rest) :
    ∃ mem' rest', pathNormalize mem p p = some mem' ∧ mem'.length = mem.length ∧
      mem'.drop p = joined cs ++ 0 :: rest' ∧
        ∀ q, p + (decorated dotted trailing cs).length < q → mem'.drop q = mem.drop q := by
  have hlen := lt_length_of_drop hdrop
  obtain ⟨mem', rest', hrun, hlen', -, hdrop', htail⟩ := pathNormalize_spec
    (decorated_no_nul h dotted trailing) hdrop (Or.inl (Nat.le_refl p)) (by omega)
  rw [normalize_decorated h hne] at hdrop'
  exact ⟨mem', rest', hrun, hlen', hdrop', fun q hq => htail q hq hq⟩

end

end LykOS.Pathname
