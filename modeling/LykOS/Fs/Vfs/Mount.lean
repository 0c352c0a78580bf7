import LykOS.Arch.Types
import LykOS.Lib.CString
import Mathlib.Data.List.Find

/-!
# Mount points

The trie of mount points of `fs/vfs.c`, and `vfs_get_mountpoint`. A component that a slash follows
is compared with the names of the children up to its own length only, so a child whose name is
longer matches as well, and the path then goes on behind the end of the component. And the result is
what is mounted at the last node that was reached, which may be nothing. Where neither comes into
play, the result is the deepest mount point among the whole components of the path
(`mountpoint_right_iff`).
-/

namespace LykOS.Vfs

open CStr List Option

def slash : UInt8 := 47

/-- `trie_node_t`; vnodes are named by numbers. -/
inductive Trie
  | node (comp : CStr) (rootVn : Option ℕ) (children : List Trie)

namespace Trie

def comp : Trie → CStr
  | node c _ _ => c

def rootVn : Trie → Option ℕ
  | node _ vn _ => vn

def children : Trie → List Trie
  | node _ _ l => l

end Trie

def findChild (parent : Trie) (comp : List UInt8) (length : ℕ) : Option Trie :=
  parent.children.find? fun child => strncmp child.comp.chars comp length = 0

/-- The loop of `vfs_get_mountpoint`: the node that is reached, and the path there. It has no result if
it leaves the buffer. -/
def mountLoop (buf : List UInt8) : ℕ → ℕ → Trie → Option (Trie × ℕ)
  | 0, _, _ => none
  | n + 1, path, current => do
    if (← charAt buf path) ≠ 0 then
      let path := skip buf path slash
      let length := match strchr buf path slash with
        | some i => i - path
        | none => 2 ^ 64 - 1
      match findChild current (strAt buf path).chars length with
      | some child => mountLoop buf n (path + child.comp.chars.length) child
      | none => some (current, path)
    else some (current, path)

/-- `vfs_get_mountpoint(path, &out)`: the vnode, and the path as an index into the buffer. -/
def vfsGetMountpoint (root : Trie) (path : CStr) : Option (Option ℕ × ℕ) :=
  (mountLoop path.chars (path.chars.length + 1) 0 root).map fun r => (r.1.rootVn, r.2)

/-! ## Longest prefixes -/

/-- The names below a node are components that fit `comp[32]`, and no two siblings have the same. -/
inductive Trie.Valid : Trie → Prop
  | node {c : CStr} {vn : Option ℕ} {l : List Trie}
    (names : ∀ t ∈ l, t.comp.chars ≠ [] ∧ slash ∉ t.comp.chars ∧ t.comp.chars.length < 32)
    (nodup : (l.map Trie.comp).Nodup) (valid : ∀ t ∈ l, t.Valid) : (Trie.node c vn l).Valid

namespace Trie

def child? (t : Trie) (c : List UInt8) : Option Trie := t.children.find? fun ch => ch.comp.chars = c

/-- The deepest mount point along the components, with the components behind it. -/
def deepest : Trie → List (List UInt8) → Option (ℕ × List (List UInt8))
  | t, [] => t.rootVn.map fun vn => (vn, [])
  | t, c :: cs =>
    ((t.child? c).bind fun ch => ch.deepest cs).or (t.rootVn.map fun vn => (vn, c :: cs))

/-- The child that `find_child` takes for a component that a slash follows, or not. -/
def pick (t : Trie) (c : List UInt8) (inner : Bool) : Option Trie :=
  if inner then t.children.find? fun ch => c.isPrefixOf ch.comp.chars else t.child? c

/-- Along the components `find_child` takes the right children, and the last node is a mount point.
`trail` says that a slash follows the last component. -/
def Clear (trail : Bool) : Trie → List (List UInt8) → Prop
  | t, [] => t.rootVn ≠ none
  | t, c :: cs => t.pick c (trail || !cs.isEmpty) = t.child? c ∧
    match t.child? c with
    | some ch => ch.Clear trail cs
    | none => t.rootVn ≠ none

end Trie

mutual

/-- The vnodes that are mounted at a node and below. -/
def Trie.mounts : Trie → List ℕ
  | .node _ vn l => vn.toList ++ mountsOf l

def mountsOf : List Trie → List ℕ
  | [] => []
  | t :: l => t.mounts ++ mountsOf l

end

/-- The result is the deepest mount point along the components of the path, if there is one, and
what is left of the path has the components behind it. -/
def MountRight (root : Trie) (path : CStr) : Prop :=
  ∀ vn rest, root.deepest (components slash path.chars) = some (vn, rest) →
    ∃ p, vfsGetMountpoint root path = some (some vn, p) ∧
      components slash (path.chars.drop p) = rest

/-- A slash ends the path. -/
def trails (path : List UInt8) : Bool := path.getLast? = some slash

/-- There is no mount point along the path, or the walk is clear. -/
def MountClear (root : Trie) (path : CStr) : Prop :=
  root.deepest (components slash path.chars) = none ∨
    root.Clear (trails path.chars) (components slash path.chars)

/-! ## The walk -/

theorem Trie.Valid.names {t : Trie} (h : t.Valid) {ch : Trie} (hch : ch ∈ t.children) :
    ch.comp.chars ≠ [] ∧ slash ∉ ch.comp.chars ∧ ch.comp.chars.length < 32 := by
  cases h with
  | node names nodup valid => exact names ch hch

theorem Trie.Valid.child {t : Trie} (h : t.Valid) {ch : Trie} (hch : ch ∈ t.children) : ch.Valid := by
  cases h with
  | node names nodup valid => exact valid ch hch

section

variable {t : Trie} {c rest : List UInt8}

theorem Trie.mem_of_pick {inner : Bool} {ch : Trie} (h : t.pick c inner = some ch) :
    ch ∈ t.children := by
  unfold Trie.pick Trie.child? at h
  split_ifs at h
  · exact mem_of_find?_eq_some h
  · exact mem_of_find?_eq_some h

theorem findChild_inner (hc : ∀ a ∈ c ++ rest, a ≠ 0) :
    findChild t (c ++ rest) c.length = t.pick c true := by
  unfold findChild Trie.pick
  rw [if_pos rfl]
  refine find?_congr fun ch _ => ?_
  rw [Bool.eq_iff_iff, decide_eq_true_iff, strncmp_eq_zero ch.comp.no_nul hc, take_left,
    isPrefixOf_iff_prefix, prefix_iff_eq_take]
  exact eq_comm

theorem findChild_last (ht : t.Valid) (hc : ∀ a ∈ c, a ≠ 0) :
    findChild t c (2 ^ 64 - 1) = t.pick c false := by
  unfold findChild Trie.pick Trie.child?
  rw [if_neg Bool.false_ne_true]
  refine find?_congr fun ch hch => ?_
  have hlen := (ht.names hch).2.2
  rw [Bool.eq_iff_iff, decide_eq_true_iff, decide_eq_true_iff, strncmp_eq_zero ch.comp.no_nul hc,
    take_of_length_le (by omega)]
  constructor
  · intro h
    have hmin := congrArg List.length h
    rw [length_take] at hmin
    rw [h, take_of_length_le (by omega)]
  · rintro rfl
    rw [take_of_length_le (by omega)]

end

section

variable {buf : List UInt8} {p : ℕ} {t : Trie} (hbuf : ∀ a ∈ buf, a ≠ 0) (hp : p ≤ buf.length)
  (ht : t.Valid)

include hbuf hp ht

theorem mountLoop_nil (n : ℕ) (h : components slash (buf.drop p) = []) :
    ∃ p', p ≤ p' ∧ p' ≤ buf.length ∧ buf.drop p' = [] ∧ mountLoop buf (n + 1) p t = some (t, p') := by
  unfold mountLoop
  by_cases hend : buf.drop p = []
  · rw [(charAt_eq_zero hbuf hp).mpr hend]
    exact ⟨p, Nat.le_refl p, hp, hend, rfl⟩
  · obtain ⟨a, ha, hne⟩ := exists_charAt hbuf hp hend
    have hskip := drop_skip_of_no_component h
    have hchr : strchr buf (skip buf p slash) slash = none := by
      have happ : buf.drop (skip buf p slash) = [] ++ [] := hskip
      rw [strchr_eq hbuf happ (fun _ hd => by cases hd) (Or.inl rfl), if_pos rfl]
    have hpick : t.pick [] false = none := by
      unfold Trie.pick Trie.child?
      rw [if_neg Bool.false_ne_true, find?_eq_none]
      intro ch hch
      simpa using (ht.names hch).1
    refine ⟨skip buf p slash, (skip_le hp slash).1, (skip_le hp slash).2, hskip, ?_⟩
    simp only [ha, bind_eq_bind, Option.bind_some, ne_eq, hne, not_false_eq_true, if_true, hchr,
      strAt_chars hbuf, hskip]
    rw [findChild_last ht (fun _ hd => by cases hd), hpick]

theorem mountLoop_cons (n : ℕ) {c : List UInt8} {cs : List (List UInt8)}
    (h : components slash (buf.drop p) = c :: cs) :
    ∃ q, p ≤ q ∧ q + c.length ≤ buf.length ∧ components slash (buf.drop q) = c :: cs ∧
      components slash (buf.drop (q + c.length)) = cs ∧
      mountLoop buf (n + 1) p t = match t.pick c (trails buf || !cs.isEmpty) with
        | some ch => mountLoop buf n (q + ch.comp.chars.length) ch
        | none => some (t, q) := by
  obtain ⟨⟨a, ha, hne⟩, -, hcomp, tail, hdrop, htail, htaildrop, rfl, hiff⟩ :=
    exists_component hbuf hp h
  have hle := skip_le hp slash
  have hlen : skip buf p slash + c.length ≤ buf.length := by
    have hlen := congrArg List.length hdrop
    rw [length_drop, length_append] at hlen
    omega
  have hcs : components slash (buf.drop (skip buf p slash)) = components slash (buf.drop p) := by
    rw [drop_skip, components_dropWhile]
  have hnul : ∀ b ∈ c ++ tail, b ≠ 0 := fun b hb => hbuf b (mem_of_mem_drop (hdrop ▸ hb))
  refine ⟨skip buf p slash, hle.1, hlen, hcs.trans h, by rw [htaildrop], ?_⟩
  rw [mountLoop]
  simp only [ha, bind_eq_bind, Option.bind_some, ne_eq, hne, not_false_eq_true, if_true,
    strAt_chars hbuf, hdrop]
  rw [strchr_eq hbuf hdrop hcomp htail]
  have hinner : (trails buf || !(components slash tail).isEmpty) = decide (tail ≠ []) := by
    rw [Bool.eq_iff_iff, decide_eq_true_iff, hiff]
    simp [trails]
  rw [hinner]
  by_cases hnil : tail = []
  · rw [if_pos hnil, decide_eq_false (not_not.mpr hnil)]
    dsimp only
    rw [findChild_last ht hnul, hnil, List.append_nil]
  · rw [if_neg hnil, decide_eq_true hnil]
    dsimp only
    rw [Nat.add_sub_cancel_left, findChild_inner hnul]

end

/-! ## Mounted vnodes -/

theorem mem_mountsOf {l : List Trie} {vn : ℕ} : vn ∈ mountsOf l ↔ ∃ t ∈ l, vn ∈ t.mounts := by
  induction l with
  | nil => simp [mountsOf]
  | cons t l ih => simp [mountsOf, ih]

section

variable {t : Trie} {vn : ℕ}

theorem Trie.mounts_eq (t : Trie) : t.mounts = t.rootVn.toList ++ mountsOf t.children := by
  cases t
  rw [Trie.mounts]
  rfl

theorem Trie.mem_mounts_root (h : t.rootVn = some vn) : vn ∈ t.mounts := by
  rw [Trie.mounts_eq, h]
  exact mem_append_left _ (mem_singleton.mpr rfl)

theorem Trie.mem_mounts_child {ch : Trie} (hch : ch ∈ t.children) (h : vn ∈ ch.mounts) :
    vn ∈ t.mounts := by
  rw [Trie.mounts_eq]
  exact mem_append_right _ (mem_mountsOf.mpr ⟨ch, hch, h⟩)

theorem eq_of_nodup_mountsOf {l : List Trie} (h : (mountsOf l).Nodup) {a b : Trie} (ha : a ∈ l)
    (hb : b ∈ l) (hva : vn ∈ a.mounts) (hvb : vn ∈ b.mounts) : a = b := by
  induction l with
  | nil => cases ha
  | cons t l ih =>
    rw [mountsOf, nodup_append] at h
    obtain ⟨-, hl, hdisj⟩ := h
    rcases mem_cons.mp ha with rfl | ha'
    · rcases mem_cons.mp hb with rfl | hb'
      · rfl
      · exact absurd rfl (hdisj vn hva vn (mem_mountsOf.mpr ⟨b, hb', hvb⟩))
    · rcases mem_cons.mp hb with rfl | hb'
      · exact absurd rfl (hdisj vn hvb vn (mem_mountsOf.mpr ⟨a, ha', hva⟩))
      · exact ih hl ha' hb'

theorem nodup_of_mem {l : List Trie} (h : (mountsOf l).Nodup) {a : Trie} (ha : a ∈ l) :
    a.mounts.Nodup := by
  induction l with
  | nil => cases ha
  | cons t l ih =>
    rw [mountsOf, nodup_append] at h
    rcases mem_cons.mp ha with rfl | ha'
    · exact h.1
    · exact ih h.2.1 ha'

theorem Trie.mem_mounts_of_deepest {cs rest : List (List UInt8)} (h : t.deepest cs = some (vn, rest)) :
    vn ∈ t.mounts := by
  induction cs generalizing t with
  | nil =>
    obtain ⟨v, hv, heq⟩ := map_eq_some_iff.mp h
    cases heq
    exact Trie.mem_mounts_root hv
  | cons c cs ih =>
    unfold Trie.deepest at h
    rcases or_eq_some_iff.mp h with hch | ⟨-, hroot⟩
    · obtain ⟨ch, hch, hdeep⟩ := bind_eq_some_iff.mp hch
      exact Trie.mem_mounts_child (mem_of_find?_eq_some hch) (ih hdeep)
    · obtain ⟨v, hv, heq⟩ := map_eq_some_iff.mp hroot
      cases heq
      exact Trie.mem_mounts_root hv

end

variable {buf : List UInt8}

theorem mountLoop_le (hbuf : ∀ a ∈ buf, a ≠ 0) :
    ∀ (n p : ℕ) (t : Trie) {t' : Trie} {p' : ℕ}, t.Valid → mountLoop buf n p t = some (t', p') →
      p ≤ p' ∧ ∀ vn ∈ t'.mounts, vn ∈ t.mounts := by
  intro n
  induction n with
  | zero => intro p t t' p' _ h; cases h
  | succ n ih =>
    intro p t t' p' ht h
    have hp : p ≤ buf.length := by
      rw [mountLoop, bind_eq_bind, bind_eq_some_iff] at h
      obtain ⟨a, ha, -⟩ := h
      exact le_of_charAt ha
    rcases hcs : components slash (buf.drop p) with - | ⟨c, cs⟩
    · obtain ⟨q, hq, -, -, hrun⟩ := mountLoop_nil hbuf hp ht n hcs
      cases hrun.symm.trans h
      exact ⟨hq, fun _ => id⟩
    · obtain ⟨q, hq, -, -, -, hrun⟩ := mountLoop_cons hbuf hp ht n hcs
      rw [hrun] at h
      cases hpick : t.pick c (trails buf || !cs.isEmpty) with
      | none =>
        rw [hpick] at h
        cases h
        exact ⟨hq, fun _ => id⟩
      | some ch =>
        rw [hpick] at h
        have hmem := Trie.mem_of_pick hpick
        obtain ⟨hle, hmounts⟩ := ih _ ch (ht.child hmem) h
        exact ⟨by omega, fun vn hvn => Trie.mem_mounts_child hmem (hmounts vn hvn)⟩

theorem mountLoop_of_clear (hbuf : ∀ a ∈ buf, a ≠ 0) (cs : List (List UInt8)) (n p : ℕ) (t : Trie)
    (hp : p ≤ buf.length) (ht : t.Valid) (hcs : components slash (buf.drop p) = cs) (hn : cs.length < n)
    (hclear : t.Clear (trails buf) cs) :
    ∃ t' p' vn, mountLoop buf n p t = some (t', p') ∧ t'.rootVn = some vn ∧
      t.deepest cs = some (vn, components slash (buf.drop p')) := by
  induction cs generalizing n p t with
  | nil =>
    obtain ⟨n, rfl⟩ := Nat.exists_eq_add_of_lt hn
    rw [length_nil, Nat.zero_add]
    obtain ⟨p', -, -, hrest, hrun⟩ := mountLoop_nil hbuf hp ht n hcs
    obtain ⟨vn, hvn⟩ := ne_none_iff_exists'.mp hclear
    refine ⟨t, p', vn, hrun, hvn, ?_⟩
    unfold Trie.deepest
    rw [hvn, hrest, components_nil]
    rfl
  | cons c cs ih =>
    obtain ⟨n, rfl⟩ : ∃ m, n = m + 1 := ⟨n - 1, by omega⟩
    obtain ⟨q, -, hlen, hq, hnext, hrun⟩ := mountLoop_cons hbuf hp ht n hcs
    obtain ⟨hpick, hclear⟩ := hclear
    rw [hrun, hpick]
    unfold Trie.deepest
    cases hch : t.child? c with
    | none =>
      rw [hch] at hclear
      obtain ⟨vn, hvn⟩ := ne_none_iff_exists'.mp hclear
      refine ⟨t, q, vn, rfl, hvn, ?_⟩
      rw [hvn, hq]
      rfl
    | some ch =>
      rw [hch] at hclear
      have hmem : ch ∈ t.children := mem_of_find?_eq_some hch
      have hname : ch.comp.chars = c := by simpa using find?_some hch
      obtain ⟨t', p', vn, hrun', hvn, hdeep⟩ := ih n (q + c.length) ch hlen (ht.child hmem) hnext
        (by rw [length_cons] at hn; omega) hclear
      refine ⟨t', p', vn, ?_, hvn, ?_⟩
      · dsimp only
        rw [hname]
        exact hrun'
      · rw [Option.bind_some, hdeep]
        rfl

theorem Trie.pick_ne_child? {t : Trie} {c : List UInt8} {inner : Bool} (h : t.pick c inner ≠ t.child? c) :
    ∃ ch, t.pick c inner = some ch ∧ c.length < ch.comp.chars.length ∧ ch.comp.chars ≠ c := by
  cases inner with
  | false => exact absurd rfl h
  | true =>
    unfold Trie.pick at h ⊢
    rw [if_pos rfl] at h ⊢
    cases hfind : t.children.find? fun ch => c.isPrefixOf ch.comp.chars with
    | none =>
      refine absurd ?_ h
      rw [hfind]
      refine (find?_eq_none.mpr fun ch hch hname => ?_).symm
      refine find?_eq_none.mp hfind ch hch ?_
      rw [of_decide_eq_true hname]
      exact isPrefixOf_iff_prefix.mpr (prefix_refl c)
    | some ch =>
      have hfound := find?_some hfind
      have hpre : c <+: ch.comp.chars := isPrefixOf_iff_prefix.mp hfound
      have hname : ch.comp.chars ≠ c := by
        intro hname
        -- it would be the first child with this name
        obtain ⟨-, before, after, happ, hbefore⟩ := find?_eq_some_iff_append.mp hfind
        refine h (hfind.trans (Eq.symm ?_))
        unfold Trie.child?
        refine find?_eq_some_iff_append.mpr ⟨decide_eq_true hname, before, after, happ, ?_⟩
        intro b hb
        have hb := hbefore b hb
        rw [Bool.not_eq_true', Bool.eq_false_iff] at hb ⊢
        intro hbc
        refine hb ( isPrefixOf_iff_prefix.mpr ⟨[], ?_⟩)
        rw [List.append_nil, of_decide_eq_true hbc]
      refine ⟨ch, rfl, ?_, hname⟩
      rcases Nat.lt_or_ge c.length ch.comp.chars.length with hlt | hge
      · exact hlt
      · exact absurd (hpre.eq_of_length_le hge).symm hname

theorem clear_of_mountLoop (hbuf : ∀ a ∈ buf, a ≠ 0) (cs : List (List UInt8)) (n p : ℕ) (t : Trie)
    {t' : Trie} {p' vn : ℕ} (hp : p ≤ buf.length) (ht : t.Valid) (hnodup : t.mounts.Nodup)
    (hcs : components slash (buf.drop p) = cs) (hrun : mountLoop buf n p t = some (t', p'))
    (hvn : t'.rootVn = some vn) (hdeep : t.deepest cs = some (vn, components slash (buf.drop p'))) :
    t.Clear (trails buf) cs := by
  induction cs generalizing n p t with
  | nil =>
    obtain ⟨v, hv, -⟩ := map_eq_some_iff.mp hdeep
    unfold Trie.Clear
    rw [hv]
    exact some_ne_none v
  | cons c cs ih =>
    cases n with
    | zero => cases hrun
    | succ n =>
      obtain ⟨q, -, hlen, hq, hnext, hstep⟩ := mountLoop_cons hbuf hp ht n hcs
      rw [hstep] at hrun
      rw [Trie.mounts_eq] at hnodup
      have hchildren := (nodup_append.mp hnodup).2.1
      -- behind the component there are too few components left for a mount point at `t`
      have hfew : q + c.length ≤ p' → components slash (buf.drop p') ≠ c :: cs := by
        intro hle heq
        have hlen := components_length_drop_le slash (buf.drop (q + c.length)) (p' - (q + c.length))
        rw [drop_drop, Nat.add_sub_cancel' hle, heq, hnext, length_cons] at hlen
        omega
      unfold Trie.Clear
      by_cases hpick : t.pick c (trails buf || !cs.isEmpty) = t.child? c
      · refine ⟨hpick, ?_⟩
        rw [hpick] at hrun
        unfold Trie.deepest at hdeep
        cases hch : t.child? c with
        | none =>
          rw [hch] at hdeep
          obtain ⟨v, hv, -⟩ := map_eq_some_iff.mp hdeep
          dsimp only
          rw [hv]
          exact some_ne_none v
        | some ch =>
          rw [hch] at hrun hdeep
          have hmem : ch ∈ t.children := mem_of_find?_eq_some hch
          have hname : ch.comp.chars = c := by simpa using find?_some hch
          dsimp only at hrun ⊢
          rw [hname] at hrun
          have hle := (mountLoop_le hbuf n _ ch (ht.child hmem) hrun).1
          rcases or_eq_some_iff.mp hdeep with hdeep | ⟨-, hroot⟩
          · exact ih n _ ch hlen (ht.child hmem) (nodup_of_mem hchildren hmem) hnext hrun hdeep
          · obtain ⟨v, -, heq⟩ := map_eq_some_iff.mp hroot
            exact absurd (congrArg Prod.snd heq).symm (hfew hle)
      · obtain ⟨ch, hsome, hlt, hname⟩ := Trie.pick_ne_child? hpick
        rw [hsome] at hrun
        have hmem := Trie.mem_of_pick hsome
        obtain ⟨hle, hmounts⟩ := mountLoop_le hbuf n _ ch (ht.child hmem) hrun
        unfold Trie.deepest at hdeep
        rcases or_eq_some_iff.mp hdeep with hdeep | ⟨-, hroot⟩
        · obtain ⟨ch', hch', hdeep⟩ := bind_eq_some_iff.mp hdeep
          have hsame := eq_of_nodup_mountsOf hchildren hmem (mem_of_find?_eq_some hch')
            (hmounts vn (Trie.mem_mounts_root hvn)) (Trie.mem_mounts_of_deepest hdeep)
          exact absurd (hsame ▸ by simpa using find?_some hch') hname
        · obtain ⟨v, -, heq⟩ := map_eq_some_iff.mp hroot
          exact absurd (congrArg Prod.snd heq).symm (hfew (by omega))

/-! ## Mount resolution -/

/-- A clear walk finds the deepest mount point. If no vnode is mounted twice, only a clear walk
does. -/
theorem mountpoint_right_iff {root : Trie} (h : root.Valid) (path : CStr) :
    (MountClear root path → MountRight root path) ∧
      (root.mounts.Nodup → MountRight root path → MountClear root path) := by
  have hlen : (components slash path.chars).length < path.chars.length + 1 :=
    Nat.lt_succ_of_le (components_length_le slash path.chars)
  constructor
  · rintro (hnone | hclear) vn rest hdeep
    · rw [hnone] at hdeep
      cases hdeep
    · obtain ⟨t', p', v, hrun, hv, hdeep'⟩ := mountLoop_of_clear path.no_nul _ _ 0 root
        (Nat.zero_le _) h rfl hlen hclear
      rw [drop_zero, hdeep] at hdeep'
      cases hdeep'
      refine ⟨p', ?_, rfl⟩
      unfold vfsGetMountpoint
      rw [hrun, map_some, hv]
  · intro hnodup hright
    cases hdeep : root.deepest (components slash path.chars) with
    | none => exact Or.inl hdeep
    | some r =>
      obtain ⟨vn, rest⟩ := r
      obtain ⟨p, hget, rfl⟩ := hright vn rest hdeep
      obtain ⟨⟨t', p'⟩, hrun, heq⟩ := map_eq_some_iff.mp hget
      obtain ⟨hvn, rfl⟩ := Prod.mk.inj heq
      exact Or.inr (clear_of_mountLoop path.no_nul _ _ 0 root (Nat.zero_le _) h hnodup rfl hrun hvn hdeep)

/-- A mount point named `dev` below the root, where `0` is mounted. -/
def sampleTrie (vn : Option ℕ) : Trie :=
  .node (.ofList [] rfl) (some 0) [.node (.ofList [100, 101, 118] rfl) vn []]

theorem sampleTrie_valid (vn : Option ℕ) : (sampleTrie vn).Valid := by
  refine .node (fun t ht => ?_) (pairwise_singleton _ _) fun t ht => ?_
  · rw [mem_singleton.mp ht]
    dsimp only [Trie.comp]
    decide
  · rw [mem_singleton.mp ht]
    exact .node (fun t ht => by cases ht) nodup_nil fun t ht => by cases ht

def samplePath : CStr := .ofList [47, 100, 101, 118, 47, 97] rfl

theorem mountpoint_right_sample : MountRight (sampleTrie (some 1)) samplePath := by
  refine (mountpoint_right_iff (sampleTrie_valid _) samplePath).1 (Or.inr ?_)
  have hcs : components slash samplePath.chars = [[100, 101, 118], [97]] := by decide +kernel
  rw [hcs]
  exact ⟨rfl, rfl, some_ne_none 1⟩

def shortPath : CStr := .ofList [47, 100, 47, 97] rfl

/-- `/d/a` is taken to be below `dev`, with no path left: the second component is lost. And below a
node where nothing is mounted there is no vnode, though one is mounted at the root. -/
theorem mountpoint_takes_longer_name :
    (sampleTrie (some 1)).deepest (components slash shortPath.chars) = some (0, [[100], [97]]) ∧
    vfsGetMountpoint (sampleTrie (some 1)) shortPath = some (some 1, 4) ∧
    (sampleTrie none).deepest (components slash samplePath.chars) =
      some (0, [[100, 101, 118], [97]]) ∧
    vfsGetMountpoint (sampleTrie none) samplePath = some (none, 5) := by
  decide +kernel

end LykOS.Vfs
