import LykOS.Lib.NormalPath

/-!
# Normalization in place

`process_entry` calls `path_normalize` with one buffer as source and destination. The accesses of a call are
listed here in their order: reads through the cursor `p`, with the look-ahead, writes through the cursor
`n`, and the read of the last character written. In place, every read through `p` finds the byte that was
there at the start, as a write is never in front of a later one of them, and the last read finds what the
writes have left there (`normalize_in_place`).
-/

namespace LykOS.Pathname

open CStr Vfs List

/-- What `path_normalize` does: the loop is at its condition, it reads `*p` or `*(p + 1)`, it writes
`*n`, or it reads `*(n - 1)`. -/
inductive Access
  | cursors (p n : ℕ)
  | read (a : ℕ) (c : UInt8)
  | write (a : ℕ) (c : UInt8)
  | back (a : ℕ) (c : UInt8)
  deriving DecidableEq, Repr

/-- The reads of `k` bytes from `p` on. -/
def readsFrom (mem : List UInt8) (p k : ℕ) : List Access :=
  (List.range' p k).map fun a => .read a (mem.getD a 0)

/-- `*(p + 1) == '/' || *(p + 1) == '\0'`. -/
def lookAhead (mem : List UInt8) (p : ℕ) : List Access :=
  if mem[p + 1]? = some slash then readsFrom mem (p + 1) 1
  else readsFrom mem (p + 1) 1 ++ readsFrom mem (p + 1) 1

/-- The accesses of the loop, which branches as `normalizeLoop` does. -/
def loopAccesses : ℕ → List UInt8 → ℕ → ℕ → List Access
  | 0, _, _, _ => []
  | fuel + 1, mem, p, n =>
    match mem[p]? with
    | none => [.cursors p n]
    | some c =>
      let byte := Access.read p c
      if c = 0 then [.cursors p n, byte]
      else if c = slash then
        let mem := mem.set n slash
        let q := skip mem p slash
        [.cursors p n, byte, byte] ++ .write n slash ::
          (readsFrom mem p (q + 1 - p) ++ loopAccesses fuel mem q (n + 1))
      else if c = dot ∧ (mem[p + 1]? = some slash ∨ mem[p + 1]? = some 0) then
        [.cursors p n, byte, byte, byte] ++ (lookAhead mem p ++ (readsFrom mem (p + 1) 1 ++
          loopAccesses fuel mem (if mem[p + 1]? = some slash then p + 2 else p + 1) n))
      else
        [.cursors p n, byte, byte, byte] ++ ((if c = dot then lookAhead mem p else []) ++
          ([byte] ++ .write n c :: loopAccesses fuel (mem.set n c) (p + 1) (n + 1)))

/-- The accesses behind the loop. -/
def endAccesses (mem : List UInt8) (normalized n : ℕ) : List Access :=
  (if normalized + 1 < n then [.back (n - 1) (mem.getD (n - 1) 0)] else []) ++
    [.write (if normalized + 1 < n ∧ mem[n - 1]? = some slash then n - 1 else n) 0]

/-- The accesses of `path_normalize(path, normalized)`. -/
def accesses (mem : List UInt8) (path normalized : ℕ) : List Access :=
  loopAccesses (mem.length + 1) mem path normalized ++
    match normalizeLoop (mem.length + 1) mem path normalized with
    | none => []
    | some (mem, n) => endAccesses mem normalized n

/-- The memory after the writes among the accesses. -/
def replay (mem : List UInt8) (t : List Access) : List UInt8 :=
  t.foldl (fun mem x => match x with
    | .write a c => mem.set a c
    | _ => mem) mem

/-- A byte that is written is not in front of those read later, and where it is one of them it is
written over itself. -/
def Behind : Access → Access → Prop
  | .write a c, .read b d => a ≤ b ∧ (a = b → c = d)
  | _, _ => True

/-- A byte that is written is not read later. -/
def NotReread : Access → Access → Prop
  | .write a _, .read b _ => a ≠ b
  | _, _ => True

instance : DecidableRel NotReread
  | .write a _, .read b _ => inferInstanceAs (Decidable (a ≠ b))
  | .write _ _, .cursors _ _ | .write _ _, .write _ _ | .write _ _, .back _ _ => isTrue trivial
  | .cursors _ _, _ | .read _ _, _ | .back _ _, _ => isTrue trivial

/-- The accesses `t` of a call on the string `s` at `path`, in place, and the memory it leaves. -/
structure InPlace (mem : List UInt8) (path : ℕ) (s : CStr) (t : List Access) (mem' : List UInt8) :
    Prop where
  result : replay mem t = mem'
  cursors : ∀ p n, .cursors p n ∈ t → n ≤ p
  reads : ∀ a c, .read a c ∈ t → mem[a]? = some c
  writes : ∀ a c, .write a c ∈ t → path ≤ a ∧ a ≤ path + s.chars.length
  order : t.Pairwise Behind
  back : ∀ a c, .back a c ∈ t → ∃ front rest, t = front ++ .back a c :: rest ∧ (replay mem front)[a]? = some c

/-! ## What is written -/

section

variable {mem mem' : List UInt8} {t t' : List Access} {p n k fuel : ℕ}

theorem replay_append : replay mem (t ++ t') = replay (replay mem t) t' := foldl_append

theorem mem_readsFrom {x : Access} (h : x ∈ readsFrom mem p k) :
    ∃ a, x = .read a (mem.getD a 0) ∧ p ≤ a ∧ a < p + k := by
  obtain ⟨a, ha, rfl⟩ := mem_map.mp h
  exact ⟨a, rfl, mem_range'_1.mp ha⟩

theorem mem_lookAhead {x : Access} (h : x ∈ lookAhead mem p) : x ∈ readsFrom mem (p + 1) 1 := by
  unfold lookAhead at h
  split_ifs at h
  · exact h
  · exact (mem_append.mp h).elim id id

theorem replay_of_reads (h : ∀ x ∈ t, x ∈ readsFrom mem' p k) : replay mem t = mem := by
  induction t with
  | nil => rfl
  | cons x t ih =>
    obtain ⟨a, rfl, -⟩ := mem_readsFrom (h x mem_cons_self)
    exact ih fun y hy => h y (mem_cons_of_mem _ hy)

theorem replay_readsFrom : replay mem (readsFrom mem' p k) = mem := replay_of_reads fun _ hx => hx

theorem replay_lookAhead : replay mem (lookAhead mem' p) = mem :=
  replay_of_reads fun _ hx => mem_lookAhead hx

theorem replay_write {a : ℕ} {c : UInt8} :
    replay mem (.write a c :: t) = replay (mem.set a c) t := rfl

theorem replay_loopAccesses (h : normalizeLoop fuel mem p n = some (mem', k)) :
    replay mem (loopAccesses fuel mem p n) = mem' := by
  induction fuel generalizing mem p n with
  | zero => cases h
  | succ fuel ih =>
    rw [normalizeLoop] at h
    obtain ⟨c, hc, h⟩ := Option.bind_eq_some_iff.mp h
    rw [loopAccesses, hc]
    dsimp only
    split_ifs at h ⊢
    · cases h
      rfl
    · obtain ⟨_, -, h⟩ := Option.bind_eq_some_iff.mp h
      rw [replay_append, replay_write, replay_append, replay_readsFrom]
      exact ih h
    · rw [replay_append, replay_append, replay_append, replay_readsFrom, replay_lookAhead]
      exact ih h
    · rw [replay_append, replay_append, replay_append, replay_readsFrom, replay_lookAhead]
      exact ih h
    · obtain ⟨_, -, h⟩ := Option.bind_eq_some_iff.mp h
      rw [replay_append, replay_append, replay_append, replay_lookAhead]
      exact ih h
    · obtain ⟨_, -, h⟩ := Option.bind_eq_some_iff.mp h
      exact ih h

theorem replay_endAccesses :
    replay mem (endAccesses mem p n) =
      mem.set (if p + 1 < n ∧ mem[n - 1]? = some slash then n - 1 else n) 0 := by
  unfold endAccesses
  by_cases h : p + 1 < n
  · rw [if_pos h]
    rfl
  · rw [if_neg h]
    rfl

end

/-! ## Where it is written -/

/-- An access that writes nothing: a read is at `p` or behind, and finds what is in the memory. -/
def Quiet (mem : List UInt8) (p : ℕ) : Access → Prop
  | .cursors q n => n ≤ q
  | .read a c => p ≤ a ∧ mem[a]? = some c
  | .write _ _ | .back _ _ => False

/-- An access that reads from `p` on what is in the memory, or writes from `n` to `stop`. -/
def Fine (mem : List UInt8) (p n stop : ℕ) : Access → Prop
  | .write a _ => n ≤ a ∧ a ≤ stop
  | x => Quiet mem p x

structure Tame (mem : List UInt8) (p n stop : ℕ) (t : List Access) : Prop where
  fine : ∀ x ∈ t, Fine mem p n stop x
  order : t.Pairwise Behind

section

variable {mem mem' s rest : List UInt8} {t l : List Access} {x : Access} {c : UInt8}
  {p q n m k stop fuel : ℕ}

theorem Fine.earlier (h : Fine mem' q m stop x) (hp : p ≤ q) (hn : n ≤ m)
    (hsame : ∀ a, q ≤ a → mem'[a]? = mem[a]?) : Fine mem p n stop x := by
  cases x with
  | read a c => exact ⟨hp.trans h.1, hsame a h.1 ▸ h.2⟩
  | write a c => exact ⟨hn.trans h.1, h.2⟩
  | _ => exact h

theorem Tame.nil : Tame mem p n stop [] := ⟨fun _ h => absurd h not_mem_nil, .nil⟩

theorem Tame.cons_quiet (hx : Quiet mem p x) (h : Tame mem p n stop t) : Tame mem p n stop (x :: t) := by
  refine ⟨forall_mem_cons.mpr ⟨?_, h.fine⟩, pairwise_cons.mpr ⟨fun y _ => ?_, h.order⟩⟩
  · cases x with
    | write a c => exact hx.elim
    | _ => exact hx
  · cases x with
    | write a c => exact hx.elim
    | _ => trivial

theorem Tame.quiet (hl : ∀ x ∈ l, Quiet mem p x) (h : Tame mem p n stop t) :
    Tame mem p n stop (l ++ t) := by
  induction l with
  | nil => exact h
  | cons x l ih =>
    exact (ih fun y hy => hl y (mem_cons_of_mem _ hy)).cons_quiet (hl x mem_cons_self)

theorem Tame.write (h : Tame mem p m stop t) (hm : n ≤ m) (hnp : n ≤ p) (hstop : n ≤ stop)
    (hsame : n = p → mem[n]? = some c) : Tame mem p n stop (.write n c :: t) where
  fine := forall_mem_cons.mpr ⟨⟨Nat.le_refl n, hstop⟩, fun y hy =>
    (h.fine y hy).earlier (Nat.le_refl p) hm fun _ _ => rfl⟩
  order := by
    refine pairwise_cons.mpr ⟨fun y hy => ?_, h.order⟩
    cases y with
    | read b d =>
      obtain ⟨hb, hd⟩ := h.fine _ hy
      refine ⟨hnp.trans hb, fun heq => ?_⟩
      rw [← heq, hsame (by omega)] at hd
      exact Option.some.inj hd
    | _ => trivial

theorem Tame.earlier (h : Tame mem' q m stop t) (hp : p ≤ q) (hn : n ≤ m)
    (hsame : ∀ a, q ≤ a → mem'[a]? = mem[a]?) : Tame mem p n stop t :=
  ⟨fun x hx => (h.fine x hx).earlier hp hn hsame, h.order⟩

theorem quiet_readsFrom (hp : p ≤ q) (hk : q + k ≤ mem'.length)
    (hsame : ∀ a, q ≤ a → mem'[a]? = mem[a]?) : ∀ x ∈ readsFrom mem' q k, Quiet mem p x := by
  intro x hx
  obtain ⟨a, rfl, hle, hlt⟩ := mem_readsFrom hx
  refine ⟨hp.trans hle, ?_⟩
  rw [← hsame a hle, getD_eq_getElem?_getD, getElem?_eq_getElem (show a < mem'.length by omega)]
  rfl

theorem quiet_lookAhead (h : p + 1 < mem.length) : ∀ x ∈ lookAhead mem p, Quiet mem p x := fun x hx =>
  quiet_readsFrom (Nat.le_succ p) (show p + 1 + 1 ≤ _ from h) (fun _ _ => rfl) x (mem_lookAhead hx)

theorem quiet_here (hn : n ≤ p) (hc : mem[p]? = some c) (hl : ∀ x ∈ l, x = .cursors p n ∨ x = .read p c) :
    ∀ x ∈ l, Quiet mem p x := by
  intro x hx
  rcases hl x hx with rfl | rfl
  · exact hn
  · exact ⟨Nat.le_refl p, hc⟩

theorem getElem?_set_behind (hn : n ≤ q) (hsame : n = q → mem[n]? = some c) :
    ∀ a, q ≤ a → (mem.set n c)[a]? = mem[a]? := by
  intro a ha
  by_cases heq : n = a
  · have hc := hsame (by omega)
    rw [heq] at hc ⊢
    rw [getElem?_set_self (List.getElem?_eq_some_iff.mp hc).1, hc]
  · exact getElem?_set_ne heq

theorem tame_loopAccesses (hs : ∀ c ∈ s, c ≠ 0) (hdrop : mem.drop p = s ++ 0 :: rest) (hn : n ≤ p) :
    Tame mem p n (p + s.length) (loopAccesses fuel mem p n) := by
  induction fuel generalizing mem p n s rest with
  | zero => exact Tame.nil
  | succ fuel ih =>
    have hlen := lt_length_of_drop hdrop
    cases s with
    | nil =>
      have hc := get_of_drop hdrop
      rw [loopAccesses, hc]
      exact Tame.nil.quiet (l := [.cursors p n, .read p 0]) (quiet_here hn hc (by simp))
    | cons c s =>
      rw [cons_append] at hdrop
      have hc := get_of_drop hdrop
      have hnext := drop_succ hdrop
      have hs' : ∀ a ∈ s, a ≠ 0 := fun a ha => hs a (mem_cons_of_mem _ ha)
      rw [length_cons] at hlen ⊢
      rw [loopAccesses, hc]
      dsimp only
      rw [if_neg (hs c mem_cons_self)]
      by_cases hslash : c = slash
      · -- the slash is written, perhaps over itself, and the inner loop reads from `p` again
        subst hslash
        rw [if_pos rfl]
        have hsame : ∀ a, p ≤ a → (mem.set n slash)[a]? = mem[a]? := getElem?_set_behind hn
          fun heq => heq ▸ hc
        obtain ⟨rest', hdrop'⟩ := drop_set_slash hdrop (.inl hn)
        obtain ⟨hskip, hpos⟩ := skip_slash hdrop'
        have hle := (dropWhile_sublist (· == slash) (l := s)).length_le
        have hrest := ih (fun a ha => hs' a ((dropWhile_sublist _).subset ha)) hskip
          (show n + 1 ≤ _ by omega)
        rw [hpos, Nat.add_right_comm, Nat.add_assoc] at hrest
        have hreads : ∀ x ∈ readsFrom (mem.set n slash) p (skip (mem.set n slash) p slash + 1 - p),
            Quiet mem p x :=
          quiet_readsFrom (Nat.le_refl p) (by rw [length_set]; omega) hsame
        refine Tame.quiet (quiet_here hn hc (by simp)) (Tame.write (.quiet hreads ?_)
          (Nat.le_succ n) hn (by omega) fun heq => heq ▸ hc)
        exact hrest.earlier (by omega) (Nat.le_refl _) fun a ha => hsame a (by omega)
      rw [if_neg hslash]
      by_cases hdot : c = dot ∧ (mem[p + 1]? = some slash ∨ mem[p + 1]? = some 0)
      · rw [if_pos hdot]
        obtain ⟨hiffslash, hiffnul⟩ := char_of_drop hs' hnext
        obtain ⟨k, hk, hdropk, hpos, hlenk⟩ := skip_dot hs' hnext
          (hdot.2.symm.imp hiffnul.mp hiffslash.mp)
        have hrest := ih (fun a ha => hs' a (mem_of_mem_drop ha)) hdropk (show n ≤ p + k by omega)
        rw [Nat.add_assoc, hlenk] at hrest
        rw [hk]
        refine Tame.quiet (quiet_here hn hc (by simp)) (.quiet (quiet_lookAhead (by omega)) (.quiet
          (quiet_readsFrom (Nat.le_succ p) (show p + 1 + 1 ≤ _ by omega) fun _ _ => rfl) ?_))
        exact hrest.earlier (Nat.le_add_right p k) (Nat.le_refl n) fun _ _ => rfl
      · rw [if_neg hdot]
        have hsame : ∀ a, p + 1 ≤ a → (mem.set n c)[a]? = mem[a]? :=
          getElem?_set_behind (Nat.le_succ_of_le hn) fun heq => absurd heq (by omega)
        have hdrop' : (mem.set n c).drop (p + 1) = s ++ 0 :: rest :=
          (drop_set_of_lt (Nat.lt_succ_of_le hn)).trans hnext
        have hrest := (ih hs' hdrop' (Nat.succ_le_succ hn)).earlier (Nat.le_refl _) (Nat.le_refl _) hsame
        rw [Nat.add_right_comm, Nat.add_assoc] at hrest
        have hwrite := hrest.write (c := c) (Nat.le_succ n) (Nat.le_succ_of_le hn) (by omega)
          fun heq => absurd heq (by omega)
        refine Tame.quiet (quiet_here hn hc (by simp)) (.quiet (fun x hx => ?_) (.quiet
          (quiet_here hn hc (by simp)) (hwrite.earlier (Nat.le_succ p) (Nat.le_refl n) fun _ _ => rfl)))
        split_ifs at hx
        · exact quiet_lookAhead (by omega) x hx
        · exact absurd hx not_mem_nil

theorem behind_of_not_read {y : Access} (h : ∀ b d, y ≠ .read b d) : Behind x y := by
  cases y with
  | read b d => exact absurd rfl (h b d)
  | _ => cases x <;> trivial

theorem mem_endAccesses (hn : n ≤ m) (hx : x ∈ endAccesses mem n m) :
    (n + 1 < m ∧ x = .back (m - 1) (mem.getD (m - 1) 0)) ∨ ∃ a, x = .write a 0 ∧ n ≤ a ∧ a ≤ m := by
  rcases mem_append.mp hx with hx | hx
  · split_ifs at hx with hlt
    · exact .inl ⟨hlt, mem_singleton.mp hx⟩
    · exact absurd hx not_mem_nil
  · refine .inr ⟨_, mem_singleton.mp hx, ?_⟩
    split_ifs <;> omega

theorem Tame.order_append_end (h : Tame mem p n stop t) (hn : n ≤ m) :
    (t ++ endAccesses mem' n m).Pairwise Behind := by
  have hread : ∀ x ∈ endAccesses mem' n m, ∀ b d, x ≠ .read b d := by
    intro x hx b d
    rcases mem_endAccesses hn hx with ⟨-, rfl⟩ | ⟨a, rfl, -⟩ <;> simp
  refine pairwise_append.mpr ⟨h.order, ?_, fun x _ y hy => behind_of_not_read (hread y hy)⟩
  exact List.Pairwise.imp_of_mem (fun _ hy _ => behind_of_not_read (hread _ hy))
    (pairwise_of_forall fun _ _ => trivial)

/-- The accesses of the loop and those behind it, from the memory `mem'` that the loop has left. -/
theorem Tame.inPlace {s : CStr} (h : Tame mem p p (p + s.chars.length) t) (hloop : replay mem t = mem')
    (hn : p ≤ m) (hm : m ≤ p + s.chars.length) (hlen : m < mem'.length) :
    InPlace mem p s (t ++ endAccesses mem' p m) (replay mem' (endAccesses mem' p m)) := by
  refine ⟨by rw [replay_append, hloop], fun q k hx => ?_, fun a c hx => ?_, fun a c hx => ?_,
    h.order_append_end hn, fun a c hx => ?_⟩ <;> rcases mem_append.mp hx with hx | hx
  · exact h.fine _ hx
  · rcases mem_endAccesses hn hx with ⟨-, hx⟩ | ⟨_, hx, -⟩ <;> cases hx
  · exact (h.fine _ hx).2
  · rcases mem_endAccesses hn hx with ⟨-, hx⟩ | ⟨_, hx, -⟩ <;> cases hx
  · exact h.fine _ hx
  · rcases mem_endAccesses hn hx with ⟨-, hx⟩ | ⟨_, hx, hle, hge⟩ <;> cases hx
    exact ⟨hle, hge.trans hm⟩
  · exact (h.fine _ hx).elim
  · rcases mem_endAccesses hn hx with ⟨hlt, hx⟩ | ⟨_, hx, -⟩ <;> cases hx
    refine ⟨t, _, by rw [endAccesses, if_pos hlt]; rfl, ?_⟩
    rw [hloop, getD_eq_getElem?_getD, getElem?_eq_getElem (show m - 1 < mem'.length by omega)]
    rfl

end

/-- A string is normalized in place as it is to another buffer. At the condition of the loop the write
cursor is not in front of the read cursor, a byte is not changed before it is read for the last time through
the read cursor, and nothing is written behind the terminator. -/
theorem normalize_in_place {mem : List UInt8} {path : ℕ} {s : CStr} (hs : memStr mem path = some s) :
    ∃ mem' out, pathNormalize mem path path = some mem' ∧ memStr mem' path = some out ∧
      InPlace mem path s (accesses mem path path) mem' ∧
      ∀ other p n, memStr other p = some s →
        n + s.chars.length < p ∨ p + s.chars.length < n ∧ n + s.chars.length < other.length →
        ∃ other', pathNormalize other p n = some other' ∧ memStr other' n = some out := by
  obtain ⟨mem', hrun, hout⟩ := pathNormalize_memStr hs (.inl (Nat.le_refl path))
  refine ⟨mem', _, hrun, hout, ?_, fun other p n hother hbuf => ?_⟩
  · obtain ⟨rest, hdrop⟩ := memStr_eq_some_iff.mp hs
    have hlen := lt_length_of_drop hdrop
    obtain ⟨mem₁, hloop, hwritten⟩ := normalizeLoop_eq s.chars s.no_nul hdrop (.inl (Nat.le_refl path))
      (Nat.le_refl _) (Nat.le_refl _) (Nat.le_of_lt hlen) (show _ < mem.length + 1 by omega)
    have hchars := (normalizeChars_sublist s.chars).length_le
    unfold accesses
    rw [hloop]
    have hinPlace := (tame_loopAccesses s.no_nul hdrop (Nat.le_refl path)).inPlace (replay_loopAccesses hloop)
      (Nat.le_add_right path _) (Nat.add_le_add_left hchars path) (by rw [hwritten.1]; omega)
    unfold pathNormalize at hrun
    rw [hloop, Option.bind_eq_bind, Option.bind_some] at hrun
    obtain ⟨_, -, hset⟩ := Option.bind_eq_some_iff.mp hrun
    rw [replay_endAccesses] at hinPlace
    exact Option.some.inj hset ▸ hinPlace
  · exact pathNormalize_memStr hother (hbuf.imp (by omega) id)

/-- `a//b/` becomes `a/b`. The slash behind it is found at the end where the `b` was. -/
theorem normalize_in_place_slashes :
    memStr [97, 47, 47, 98, 47, 0] 0 = some (.ofList [97, 47, 47, 98, 47] (Eq.refl true)) ∧
    .back 3 47 ∈ accesses [97, 47, 47, 98, 47, 0] 0 0 ∧
    ∃ mem' out, pathNormalize [97, 47, 47, 98, 47, 0] 0 0 = some mem' ∧ memStr mem' 0 = some out ∧
      InPlace [97, 47, 47, 98, 47, 0] 0 (.ofList [97, 47, 47, 98, 47] (Eq.refl true))
        (accesses [97, 47, 47, 98, 47, 0] 0 0) mem' ∧
      ∀ other p n, memStr other p = some (.ofList [97, 47, 47, 98, 47] (Eq.refl true)) →
        n + 5 < p ∨ p + 5 < n ∧ n + 5 < other.length →
        ∃ other', pathNormalize other p n = some other' ∧ memStr other' n = some out :=
  ⟨by decide, by decide, normalize_in_place (by decide)⟩

/-- The slash of the root is written over itself, and then read by the loop that skips slashes. -/
theorem root_slash_reread :
    accesses [47, 0] 0 0 = [.cursors 0 0, .read 0 47, .read 0 47, .write 0 47, .read 0 47, .read 1 0,
      .cursors 1 1, .read 1 0, .write 1 0] ∧
    ¬ (accesses [47, 0] 0 0).Pairwise NotReread := by
  decide

end LykOS.Pathname
