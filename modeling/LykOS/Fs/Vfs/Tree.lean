import LykOS.Fs.Vfs.Model
import LykOS.Fs.Vfs.Mount
import Mathlib.Data.Option.Basic

/-!
# Directory trees and path lookup

The vnodes of initrd and tmpfs as a table of nodes, their operation `open`, and `vfs_open`. A node that is
not allocated cannot be read, and neither can the name of `NULL`: both have no result.

`vfs_open` cuts the path at each slash while it opens a component, and puts the slash back. It does not
look at the status of `open`, so a component that does not exist, and the empty one behind a slash at
the end, make it read the name of `NULL`. On the other paths it walks the components
(`path_lookup_iff`).
-/

namespace LykOS.Vfs

open CStr List
open Option hiding guard

def enoent : ℤ := 73
def enotdir : ℤ := 91

/-- `vnode_type_t`. -/
inductive VnodeType
  | reg
  | dir
  | fifo
  | char
  | block
  | socket
  deriving DecidableEq, Repr

/-- What path lookup uses of a node of initrd or tmpfs; nodes are named by numbers. -/
structure Node where
  name : CStr
  type : VnodeType
  children : List ℕ
  deriving DecidableEq

/-- The nodes that are allocated, the `ref_count` of each, and the next one to be allocated. -/
structure Nodes where
  node : ℕ → Option Node
  refCount : ℕ → UInt64
  next : ℕ

/-- `VN_HOLD`. -/
def Nodes.hold (ns : Nodes) (vn : ℕ) : Nodes :=
  { ns with refCount := Function.update ns.refCount vn (ns.refCount vn + 1) }

/-- The first node of a list of children with a name. -/
def findNamed (ns : Nodes) (name : CStr) : List ℕ → Option (Option ℕ)
  | [] => some none
  | c :: l => do
    let child ← ns.node c
    if strcmp child.name.chars name.chars = 0 then return some c else findNamed ns name l

/-- The operation `open` of both file systems: the status, the vnode, and the nodes. -/
def openNode (ns : Nodes) (self : ℕ) (name : CStr) : Option (ℤ × Option ℕ × Nodes) := do
  let node ← ns.node self
  if node.type ≠ .dir then return (enotdir, none, ns)
  else match ← findNamed ns name node.children with
    | some child => return (eok, some child, ns.hold child)
    | none => return (enoent, none, ns)

def tmpfsOpen : Nodes → ℕ → CStr → Option (ℤ × Option ℕ × Nodes) := openNode

/-- `open` of `fs/initrd.c`. -/
def initrdOpen : Nodes → ℕ → CStr → Option (ℤ × Option ℕ × Nodes) := openNode

/-- The status of `vfs_open`, the vnode left in `*out`, the path buffer and the nodes. -/
structure OpenResult where
  status : ℤ
  out : Option ℕ
  path : List UInt8
  nodes : Nodes

/-- The loop of `vfs_open`. -/
def openLoop : ℕ → List UInt8 → ℕ → ℕ → Nodes → Option OpenResult
  | 0, _, _, _, _ => none
  | n + 1, buf, path, curr, ns => do
    if (← charAt buf path) ≠ 0 then
      let path := skip buf path slash
      match strchr buf path slash with
      | some i =>
        let cut := buf.set i 0
        let (_, out, ns) ← openNode ns curr (strAt cut path)
        let buf := cut.set i slash
        let curr ← out
        let node ← ns.node curr
        openLoop n buf (path + node.name.chars.length) curr ns
      | none =>
        let (_, out, ns) ← openNode ns curr (strAt buf path)
        let curr ← out
        let node ← ns.node curr
        openLoop n buf (path + node.name.chars.length) curr ns
    else return ⟨eok, some curr, buf, ns⟩

/-- `vfs_open(path, &out)`; without a mount point an assertion fails. -/
def vfsOpen (root : Trie) (ns : Nodes) (path : CStr) : Option OpenResult := do
  let (curr, p) ← vfsGetMountpoint root path
  openLoop (path.chars.length + 1) path.chars p (← curr) ns

/-! ## Lookup -/

/-- The children of every node are allocated, and no node is a child of its own. -/
def Nodes.Tree (ns : Nodes) : Prop :=
  ∀ vn node, ns.node vn = some node → vn ∉ node.children ∧ ∀ c ∈ node.children, ns.node c ≠ none

def Nodes.child? (ns : Nodes) (vn : ℕ) (name : List UInt8) : Option ℕ := do
  let node ← ns.node vn
  guard (node.type = .dir)
  node.children.find? fun c => (ns.node c).any fun child => child.name.chars = name

def Nodes.lookup (ns : Nodes) : ℕ → List (List UInt8) → Option ℕ
  | vn, [] => some vn
  | vn, c :: cs => (ns.child? vn c).bind fun child => ns.lookup child cs

def Nodes.walk (ns : Nodes) : ℕ → List (List UInt8) → List ℕ
  | _, [] => []
  | vn, c :: cs => match ns.child? vn c with
    | some child => child :: ns.walk child cs
    | none => []

def rootMount (vn : ℕ) : Trie := .node ⟨[], by simp⟩ (some vn) []

/-- `vfs_open` walks the components of the path and returns the node it reaches, or returns an error and
`NULL` where there is none. The path buffer is as before. -/
def PathLookup (ns : Nodes) (root : ℕ) (path : CStr) : Prop :=
  ∃ r, vfsOpen (rootMount root) ns path = some r ∧ r.path = path.chars ∧
    match ns.lookup root (components slash path.chars) with
    | some vn => r.status = eok ∧ r.out = some vn
    | none => r.status ≠ 0 ∧ r.out = none

/-- All components exist, along directories, and no slash follows the last one. -/
def PathExists (ns : Nodes) (root : ℕ) (path : CStr) : Prop :=
  ns.lookup root (components slash path.chars) ≠ none ∧
    (components slash path.chars = [] ∨ trails path.chars = false)

/-! ## Opening a child -/

section

variable {ns : Nodes} {vn : ℕ}

variable {name : CStr} {c : ℕ}

theorem findNamed_some {l : List ℕ} {o : Option ℕ} (h : findNamed ns name l = some o) :
    (l.find? fun c => (ns.node c).any fun child => child.name.chars = name.chars) = o := by
  induction l with
  | nil => cases h; rfl
  | cons c l ih =>
    unfold findNamed at h
    obtain ⟨child, hc, h⟩ := bind_eq_some_iff.mp h
    have hiff := strcmp_eq_zero child.name.no_nul name.no_nul
    rw [find?_cons, hc, any_some]
    by_cases hname : child.name.chars = name.chars
    · rw [if_pos (hiff.mpr hname)] at h
      cases h
      rw [decide_eq_true hname]
    · rw [if_neg fun h => hname (hiff.mp h)] at h
      rw [decide_eq_false hname]
      exact ih h

theorem findNamed_ne_none (name : CStr) {l : List ℕ} (h : ∀ c ∈ l, ns.node c ≠ none) :
    findNamed ns name l ≠ none := by
  induction l with
  | nil => exact some_ne_none _
  | cons c l ih =>
    obtain ⟨child, hc⟩ := ne_none_iff_exists'.mp (h c mem_cons_self)
    unfold findNamed
    rw [hc, bind_eq_bind, Option.bind_some]
    split
    · exact some_ne_none _
    · exact ih fun d hd => h d (mem_cons_of_mem _ hd)

theorem openNode_some {r : ℤ × Option ℕ × Nodes} (h : openNode ns vn name = some r) :
    r.2 = (ns.child? vn name.chars, ((ns.child? vn name.chars).map ns.hold).getD ns) := by
  unfold openNode at h
  obtain ⟨node, hnode, h⟩ := bind_eq_some_iff.mp h
  unfold Nodes.child?
  simp only [hnode, bind_eq_bind, Option.bind_some]
  by_cases hdir : node.type = .dir
  · have hguard : (guard (node.type = .dir) : Option Unit) = some () := if_pos hdir
    rw [if_neg (not_not.mpr hdir)] at h
    obtain ⟨o, ho, h⟩ := bind_eq_some_iff.mp h
    rw [hguard, Option.bind_some, findNamed_some ho]
    cases o with
    | none => cases h; rfl
    | some c => cases h; rfl
  · have hguard : (guard (node.type = .dir) : Option Unit) = none := if_neg hdir
    rw [if_pos hdir] at h
    rw [hguard]
    cases h
    rfl

theorem openNode_ne_none (ht : ns.Tree) (hvn : ns.node vn ≠ none) (name : CStr) :
    openNode ns vn name ≠ none := by
  obtain ⟨node, hnode⟩ := ne_none_iff_exists'.mp hvn
  obtain ⟨o, ho⟩ := ne_none_iff_exists'.mp (findNamed_ne_none name (ht vn node hnode).2)
  unfold openNode
  rw [hnode, bind_eq_bind, Option.bind_some, ho]
  split
  · exact some_ne_none _
  · cases o with
    | none => exact some_ne_none _
    | some c => exact some_ne_none _

theorem child?_eq_some {name : List UInt8} : ns.child? vn name = some c ↔
    ∃ node, ns.node vn = some node ∧ node.type = .dir ∧
      (node.children.find? fun c => (ns.node c).any fun child => child.name.chars = name) = some c := by
  unfold Nodes.child?
  simp only [bind_eq_bind, bind_eq_some_iff, guard_eq_some' _]
  exact ⟨fun ⟨node, hnode, _, hdir, hfind⟩ => ⟨node, hnode, hdir, hfind⟩,
    fun ⟨node, hnode, hdir, hfind⟩ => ⟨node, hnode, (), hdir, hfind⟩⟩

theorem openNode_child (ht : ns.Tree) (h : ns.child? vn name.chars = some c) :
    openNode ns vn name = some (eok, some c, ns.hold c) := by
  obtain ⟨node, hnode, hdir, hfind⟩ := child?_eq_some.mp h
  obtain ⟨o, ho⟩ := ne_none_iff_exists'.mp (findNamed_ne_none name (ht vn node hnode).2)
  obtain rfl : o = some c := (findNamed_some ho).symm.trans hfind
  unfold openNode
  rw [hnode, bind_eq_bind, Option.bind_some, if_neg (not_not.mpr hdir), ho]
  rfl

theorem child?_name {name : List UInt8} (h : ns.child? vn name = some c) :
    ∃ child, ns.node c = some child ∧ child.name.chars = name := by
  obtain ⟨node, -, -, hfind⟩ := child?_eq_some.mp h
  simpa [Option.any_eq_true] using find?_some hfind

theorem child?_ne (ht : ns.Tree) {name : List UInt8} (h : ns.child? vn name = some c) : c ≠ vn := by
  obtain ⟨node, hnode, -, hfind⟩ := child?_eq_some.mp h
  rintro rfl
  exact (ht c node hnode).1 (mem_of_find?_eq_some hfind)

theorem child?_node {name : List UInt8} {child : ℕ} (h : ns.child? vn name = some child) :
    ns.node child ≠ none := by
  obtain ⟨node, hnode, -⟩ := child?_name h
  exact fun hnone => some_ne_none node (hnode.symm.trans hnone)

theorem lookup_hold (held : ℕ) (cs : List (List UInt8)) :
    (ns.hold held).lookup vn cs = ns.lookup vn cs := by
  induction cs generalizing vn with
  | nil => rfl
  | cons c cs ih =>
    unfold Nodes.lookup
    exact congrArg _ (funext fun child => ih)

theorem walk_hold (held : ℕ) (cs : List (List UInt8)) : (ns.hold held).walk vn cs = ns.walk vn cs := by
  induction cs generalizing vn with
  | nil => rfl
  | cons c cs ih =>
    have hch : (ns.hold held).child? vn c = ns.child? vn c := rfl
    unfold Nodes.walk
    rw [hch]
    cases ns.child? vn c with
    | none => rfl
    | some child => exact congrArg (child :: ·) ih

theorem holdAll_node (l : List ℕ) (ns : Nodes) :
    (l.foldl Nodes.hold ns).node = ns.node ∧ (l.foldl Nodes.hold ns).next = ns.next := by
  induction l generalizing ns with
  | nil => exact ⟨rfl, rfl⟩
  | cons v l ih => exact ih (ns.hold v)

theorem lookup_append (cs cs' : List (List UInt8)) :
    ns.lookup vn (cs ++ cs') = (ns.lookup vn cs).bind fun v => ns.lookup v cs' := by
  induction cs generalizing vn with
  | nil => rfl
  | cons c cs ih =>
    rw [cons_append, Nodes.lookup, Nodes.lookup, bind_assoc]
    exact congrArg _ (funext fun child => ih)

/-! ## The loop of `vfs_open` -/

variable {buf c tail : List UInt8} {p : ℕ}

/-- The names that are opened from position `p` on: the components, and the empty name if a slash ends
the path. -/
def openedFrom (buf : List UInt8) (p : ℕ) : List (List UInt8) :=
  components slash (buf.drop p) ++ if buf.drop p ≠ [] ∧ trails buf = true then [[]] else []

theorem openedFrom_cons (hbuf : ∀ a ∈ buf, a ≠ 0) (hp : p ≤ buf.length) (hne : buf.drop p ≠ []) :
    ∃ c tail, (∃ a, charAt buf p = some a ∧ a ≠ 0) ∧ buf.drop (skip buf p slash) = c ++ tail ∧
      (∀ a ∈ c, a ≠ slash) ∧ (tail = [] ∨ ∃ t, tail = slash :: t) ∧
      skip buf p slash + c.length ≤ buf.length ∧
      openedFrom buf p = c :: openedFrom buf (skip buf p slash + c.length) := by
  unfold openedFrom
  rcases hcs : components slash (buf.drop p) with - | ⟨c, cs⟩
  · have hend : buf.drop (skip buf p slash + ([] : List UInt8).length) = [] :=
      drop_skip_of_no_component hcs
    have htrail : trails buf = true := decide_eq_true (getLast?_of_no_component hcs hne)
    refine ⟨[], [], exists_charAt hbuf hp hne, hend, (fun _ hd => by cases hd), Or.inl rfl,
      (skip_le hp slash).2, ?_⟩
    rw [if_pos ⟨hne, htrail⟩, hend, components_nil, if_neg fun h => h.1 rfl]
    rfl
  · obtain ⟨ha, -, hc, tail, hdrop, htail, hnext, hrest, hiff⟩ := exists_component hbuf hp hcs
    have hlen := congrArg List.length hdrop
    have hle := skip_le hp slash
    rw [length_drop, length_append] at hlen
    have hmore : (tail ≠ [] ∧ trails buf = true) ↔ trails buf = true := by
      rw [hiff, and_iff_right_iff_imp]
      exact fun h => Or.inl (of_decide_eq_true h)
    refine ⟨c, tail, ha, hdrop, hc, htail, by omega, ?_⟩
    simp only [hnext, hmore, hne, ne_eq, not_false_eq_true, true_and, hrest, cons_append]

theorem openLoop_round (hbuf : ∀ a ∈ buf, a ≠ 0) (ha : ∃ a, charAt buf p = some a ∧ a ≠ 0)
    (hdrop : buf.drop (skip buf p slash) = c ++ tail) (hc : ∀ a ∈ c, a ≠ slash)
    (htail : tail = [] ∨ ∃ t, tail = slash :: t) (n vn : ℕ) (ns : Nodes) :
    ∃ name : CStr, name.chars = c ∧ openLoop (n + 1) buf p vn ns =
      (openNode ns vn name).bind fun r => r.2.1.bind fun curr => (r.2.2.node curr).bind fun node =>
        openLoop n buf (skip buf p slash + node.name.chars.length) curr r.2.2 := by
  obtain ⟨a, ha, hne⟩ := ha
  rw [openLoop]
  simp only [ha, bind_eq_bind, Option.bind_some, ne_eq, hne, not_false_eq_true, if_true]
  rw [strchr_eq hbuf hdrop hc htail]
  rcases htail with rfl | ⟨t, rfl⟩
  · rw [if_pos rfl]
    refine ⟨strAt buf (skip buf p slash), ?_, rfl⟩
    rw [strAt_chars hbuf, hdrop, List.append_nil]
  · have hnul : ∀ a ∈ c, a ≠ 0 := fun a ha =>
      hbuf a (mem_of_mem_drop (hdrop ▸ mem_append_left _ ha))
    rw [if_neg (cons_ne_nil _ _)]
    dsimp only
    rw [set_set_self hdrop]
    exact ⟨_, strAt_set hnul hdrop, rfl⟩

theorem openLoop_round_eq {r : ℤ × Option ℕ × Nodes} (h : openNode ns vn name = some r)
    (next : ℕ → ℕ → Nodes → Option OpenResult) :
    (r.2.1.bind fun curr => (r.2.2.node curr).bind fun node =>
      next node.name.chars.length curr r.2.2) =
    (ns.child? vn name.chars).bind fun child => next name.chars.length child (ns.hold child) := by
  rw [openNode_some h]
  cases hch : ns.child? vn name.chars with
  | none => rfl
  | some child =>
    obtain ⟨node, hnode, hnn⟩ := child?_name hch
    have hnode' : (ns.hold child).node child = some node := hnode
    simp only [Option.bind_some, map_some, getD_some, hnode', hnn]

theorem openLoop_end (hbuf : ∀ a ∈ buf, a ≠ 0) (hp : p ≤ buf.length) (hend : buf.drop p = []) (n : ℕ) :
    openLoop (n + 1) buf p vn ns = some ⟨eok, some vn, buf, ns⟩ := by
  rw [openLoop, (charAt_eq_zero hbuf hp).mpr hend]
  rfl

theorem openedFrom_end (hend : buf.drop p = []) : openedFrom buf p = [] := by
  unfold openedFrom
  rw [hend, components_nil, if_neg fun h => h.1 rfl]
  rfl

theorem openLoop_some (hbuf : ∀ a ∈ buf, a ≠ 0) {r : OpenResult} :
    ∀ (n p vn : ℕ) (ns : Nodes), p ≤ buf.length → openLoop n buf p vn ns = some r →
      ∃ v, ns.lookup vn (openedFrom buf p) = some v ∧
        r = ⟨eok, some v, buf, (ns.walk vn (openedFrom buf p)).foldl Nodes.hold ns⟩ := by
  intro n
  induction n with
  | zero => intro p vn ns _ h; cases h
  | succ n ih =>
    intro p vn ns hp h
    by_cases hend : buf.drop p = []
    · rw [openLoop_end hbuf hp hend] at h
      cases h
      rw [openedFrom_end hend]
      exact ⟨vn, rfl, rfl⟩
    · obtain ⟨c, tail, ha, hdrop, hc, htail, hnext, hnames⟩ := openedFrom_cons hbuf hp hend
      obtain ⟨name, rfl, hround⟩ := openLoop_round hbuf ha hdrop hc htail n vn ns
      rw [hround] at h
      obtain ⟨o, ho, h⟩ := bind_eq_some_iff.mp h
      rw [openLoop_round_eq ho fun len => openLoop n buf (skip buf p slash + len)] at h
      obtain ⟨child, hch, h⟩ := bind_eq_some_iff.mp h
      obtain ⟨v, hv, rfl⟩ := ih _ child (ns.hold child) hnext h
      rw [lookup_hold] at hv
      rw [walk_hold, hnames, Nodes.lookup, Nodes.walk, hch]
      exact ⟨v, hv, rfl⟩

theorem openLoop_ne_none (hbuf : ∀ a ∈ buf, a ≠ 0) :
    ∀ (n p vn : ℕ) (ns : Nodes), p ≤ buf.length → ns.Tree → ns.node vn ≠ none →
      (openedFrom buf p).length < n → ns.lookup vn (openedFrom buf p) ≠ none →
      openLoop n buf p vn ns ≠ none := by
  intro n
  induction n with
  | zero => intro p vn ns _ _ _ hn; exact absurd hn (Nat.not_lt_zero _)
  | succ n ih =>
    intro p vn ns hp ht hvn hn hlookup
    by_cases hend : buf.drop p = []
    · rw [openLoop_end hbuf hp hend]
      exact some_ne_none _
    · obtain ⟨c, tail, ha, hdrop, hc, htail, hnext, hnames⟩ := openedFrom_cons hbuf hp hend
      obtain ⟨name, rfl, hround⟩ := openLoop_round hbuf ha hdrop hc htail n vn ns
      obtain ⟨o, ho⟩ := ne_none_iff_exists'.mp (openNode_ne_none ht hvn name)
      rw [hnames, length_cons] at hn
      rw [hnames, Nodes.lookup] at hlookup
      rw [hround, ho, Option.bind_some,
        openLoop_round_eq ho fun len => openLoop n buf (skip buf p slash + len)]
      cases hch : ns.child? vn name.chars with
      | none => rw [hch] at hlookup; exact absurd rfl hlookup
      | some child =>
        rw [hch, Option.bind_some, ← lookup_hold child] at hlookup
        exact ih _ child (ns.hold child) hnext ht (child?_node hch) (Nat.lt_of_succ_lt_succ hn) hlookup

end

/-! ## `vfs_open` -/

/-- The names that `vfs_open` opens: the components, and the empty name if a slash follows the last. -/
def opened (path : List UInt8) : List (List UInt8) :=
  components slash path ++ if components slash path ≠ [] ∧ trails path = true then [[]] else []

theorem opened_length_le (path : List UInt8) : (opened path).length ≤ path.length := by
  unfold opened
  split
  · next h => 
    rw [length_append]
    exact components_length_lt slash (of_decide_eq_true h.2)
  · rw [List.append_nil]
    exact components_length_le slash path

theorem rootMount_valid (root : ℕ) : (rootMount root).Valid :=
  .node (fun _ h => by cases h) nodup_nil (fun _ h => by cases h)

theorem vfsOpen_eq (root : ℕ) (path : CStr) :
    ∃ p, p ≤ path.chars.length ∧ openedFrom path.chars p = opened path.chars ∧
      ∀ ns, vfsOpen (rootMount root) ns path =
        openLoop (path.chars.length + 1) path.chars p root ns := by
  have hbuf := path.no_nul
  have hstart : ∀ p, mountLoop path.chars (path.chars.length + 1) 0 (rootMount root) =
      some (rootMount root, p) → ∀ ns, vfsOpen (rootMount root) ns path =
        openLoop (path.chars.length + 1) path.chars p root ns := by
    intro p hrun ns
    unfold vfsOpen vfsGetMountpoint
    rw [hrun]
    rfl
  rcases hcs : components slash path.chars with - | ⟨c, cs⟩
  · obtain ⟨p, -, hp, hend, hrun⟩ :=
      mountLoop_nil hbuf (Nat.zero_le _) (rootMount_valid root) path.chars.length hcs
    refine ⟨p, hp, ?_, hstart p hrun⟩
    rw [openedFrom_end hend, opened, hcs, if_neg fun h => h.1 rfl]
    rfl
  · obtain ⟨p, -, hp, hrest, -, hrun⟩ :=
      mountLoop_cons hbuf (Nat.zero_le _) (rootMount_valid root) path.chars.length hcs
    have hnone : (rootMount root).pick c (trails path.chars || !cs.isEmpty) = none := by
      unfold Trie.pick
      split <;> rfl
    have hne : path.chars.drop p ≠ [] := by
      intro h
      rw [h, components_nil] at hrest
      cases hrest
    rw [hnone] at hrun
    refine ⟨p, by omega, ?_, hstart p hrun⟩
    unfold openedFrom opened
    simp only [hrest, hcs, hne, ne_eq, not_false_eq_true, reduceCtorEq]

section

variable {ns : Nodes} {root : ℕ} {path : CStr}

theorem vfsOpen_some {r : OpenResult} (h : vfsOpen (rootMount root) ns path = some r) :
    ∃ v, ns.lookup root (opened path.chars) = some v ∧
      r = ⟨eok, some v, path.chars, (ns.walk root (opened path.chars)).foldl Nodes.hold ns⟩ := by
  obtain ⟨p, hp, hnames, hopen⟩ := vfsOpen_eq root path
  rw [hopen] at h
  rw [← hnames]
  exact openLoop_some path.no_nul _ p root ns hp h

theorem vfsOpen_ne_none (ht : ns.Tree) (hroot : ns.node root ≠ none)
    (hex : ns.lookup root (opened path.chars) ≠ none) : vfsOpen (rootMount root) ns path ≠ none := by
  obtain ⟨p, hp, hnames, hopen⟩ := vfsOpen_eq root path
  rw [← hnames] at hex
  rw [hopen]
  refine openLoop_ne_none path.no_nul _ p root ns hp ht hroot ?_ hex
  rw [hnames]
  exact Nat.lt_succ_of_le (opened_length_le path.chars)

theorem opened_of_not_trails (h : components slash path.chars = [] ∨ trails path.chars = false) :
    opened path.chars = components slash path.chars := by
  unfold opened
  rw [if_neg, List.append_nil]
  rintro ⟨hne, htrail⟩
  rcases h with h | h
  · exact hne h
  · rw [htrail] at h
    cases h

/-- `vfs_open` looks a path up exactly if all components exist, along directories, and no slash follows
the last one. -/
theorem path_lookup_iff (ht : ns.Tree) (hroot : ns.node root ≠ none) (path : CStr) :
    PathLookup ns root path ↔ PathExists ns root path := by
  constructor
  · rintro ⟨r, hr, -, hres⟩
    obtain ⟨v', hv', rfl⟩ := vfsOpen_some hr
    unfold opened at hv'
    rw [lookup_append] at hv'
    obtain ⟨v, hv, hv'⟩ := bind_eq_some_iff.mp hv'
    rw [hv] at hres
    refine ⟨ne_none_iff_exists'.mpr ⟨v, hv⟩, ?_⟩
    by_contra hbad
    rw [not_or, Bool.not_eq_false] at hbad
    -- the empty name leads to a child of the node, never to the node
    rw [if_pos hbad, Nodes.lookup] at hv'
    obtain ⟨child, hch, hv'⟩ := bind_eq_some_iff.mp hv'
    cases hv'
    exact child?_ne ht hch (Option.some.inj hres.2)
  · rintro ⟨hex, hend⟩
    have hnames := opened_of_not_trails hend
    obtain ⟨r, hr⟩ := ne_none_iff_exists'.mp (vfsOpen_ne_none ht hroot (by rw [hnames]; exact hex))
    obtain ⟨v, hv, rfl⟩ := vfsOpen_some hr
    refine ⟨_, hr, rfl, ?_⟩
    rw [← hnames, hv]
    exact ⟨rfl, rfl⟩

end

def sampleNodes : Nodes where
  node
    | 0 => some ⟨.ofList [] (Eq.refl true), .dir, [1]⟩
    | 1 => some ⟨.ofList [97] (Eq.refl true), .reg, []⟩
    | _ => none
  refCount := fun _ => 1
  next := 2

theorem sampleNodes_tree : sampleNodes.Tree := by
  rintro (_ | _ | vn) node h <;> cases h <;> decide

theorem path_lookup_sample :
    sampleNodes.Tree ∧ sampleNodes.node 0 ≠ none ∧ PathLookup sampleNodes 0 (.ofList [47, 47, 97] rfl) := by
  refine ⟨sampleNodes_tree, by decide, ?_⟩
  exact (path_lookup_iff sampleNodes_tree (by decide) _).mpr ⟨by decide +kernel, Or.inr (by decide +kernel)⟩

/-- `vfs_open` of `/b` reads the name of `NULL`, and so does that of `/a/`. -/
theorem missing_path_reads_null :
    sampleNodes.Tree ∧ sampleNodes.lookup 0 (components slash [47, 98]) = none ∧
      vfsOpen (rootMount 0) sampleNodes (.ofList [47, 98] rfl) = none ∧
      sampleNodes.lookup 0 (components slash [47, 97, 47]) = some 1 ∧
      vfsOpen (rootMount 0) sampleNodes (.ofList [47, 97, 47] rfl) = none := by
  refine ⟨sampleNodes_tree, by decide +kernel, ?_, by decide +kernel, ?_⟩
  · rfl
  · rfl

end LykOS.Vfs
