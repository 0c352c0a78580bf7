import LykOS.Fs.Tmpfs.File
import LykOS.Fs.Vfs.Refs

/-!
# Directories of tmpfs

`tmpfs_create` links a new node into its parent and hands out its only reference. When that is given
back, `VN_RELE` calls `vfs_close` and `tmpfs_close` frees the node, which nobody takes out of the list of
the parent. So the nodes in the lists are all allocated, and can be opened again with their
contents, exactly in the runs in which no last reference is released (`linked_allocated_iff`).
-/

namespace LykOS.Tmpfs

open CStr Vfs Run Function List
open Option hiding guard

def vfsMaxNameLen : ℕ := 64

/-- `tmpfs_create(self, name, t, &out)`: the status, the new node, and the nodes. A name that does not fit
is copied over the fields behind it. -/
def tmpfsCreate (ns : Nodes) (self : ℕ) (name : CStr) (t : VnodeType) : Option (ℤ × ℕ × Nodes) := do
  let parent ← ns.node self
  guard (name.chars.length < vfsMaxNameLen)
  let child := ns.next
  let node := Function.update ns.node child (some ⟨name, t, []⟩)
  return (eok, child,
    { node := Function.update node self (some { parent with children := parent.children ++ [child] })
      refCount := Function.update ns.refCount child 1
      next := ns.next + 1 })

/-- The nodes with the files in them, and the references that were handed out and not released. -/
structure DirWorld where
  nodes : Nodes
  files : ℕ → FileNode
  refs : List ℕ

/-- The calls. `VN_RELE` gives back what `tmpfs_create` or `tmpfs_open` handed out. -/
inductive DirOp
  | create (self : ℕ) (name : CStr) (t : VnodeType)
  | openName (self : ℕ) (name : CStr)
  | write (vn offset : ℕ) (buffer : ℕ → UInt8) (count : ℕ)
  | rele (vn : ℕ)

/-- One call; `fresh` are the contents of the frames that a file gets. -/
def dirStep (fresh : ℕ → ℕ → ℕ → UInt8) (w : DirWorld) : DirOp → Option DirWorld
  | .create self name t => do
    let (_, child, nodes) ← tmpfsCreate w.nodes self name t
    return ⟨nodes, Function.update w.files child ⟨0, [], 0⟩, child :: w.refs⟩
  | .openName self name => do
    let (_, out, nodes) ← tmpfsOpen w.nodes self name
    return { w with nodes := nodes, refs := out.toList ++ w.refs }
  | .write vn offset buffer count => do
    let _ ← w.nodes.node vn
    let (_, file) ← tmpfsWrite (fresh vn) (w.files vn) offset buffer count
    return { w with files := Function.update w.files vn file }
  | .rele vn => do
    guard (vn ∈ w.refs)
    let (_, nodes) ← vnRele .tmpfs w.nodes vn
    return { w with nodes := nodes, refs := w.refs.erase vn }

/-! ## Linked nodes -/

/-- Every node in the list of a directory is allocated. -/
def LinkedAllocated (ns : Nodes) : Prop :=
  ∀ d node, ns.node d = some node → ∀ c ∈ node.children, ns.node c ≠ none

/-- What could be opened before a call can be opened after it, and has the same contents unless
the call wrote them. -/
def Reopens (w : DirWorld) (op : DirOp) (w' : DirWorld) : Prop :=
  ∀ d (name : CStr) c, w.nodes.child? d name.chars = some c →
    (∃ ns, tmpfsOpen w'.nodes d name = some (eok, some c, ns)) ∧
      ((∀ offset buffer count, op ≠ .write c offset buffer count) → w'.files c = w.files c)

/-- Every call of the run leaves the linked nodes allocated, and what was there can be opened again. -/
def LinkedRun (fresh : ℕ → ℕ → ℕ → UInt8) (w : DirWorld) (ops : List DirOp) : Prop :=
  Meets (dirStep fresh) (fun w op => ∀ w', dirStep fresh w op = some w' →
    LinkedAllocated w'.nodes ∧ Reopens w op w') w ops

/-- The call does not release the last reference on a node. -/
def KeepsLast (w : DirWorld) : DirOp → Prop
  | .rele vn => w.nodes.refCount vn ≠ 1
  | _ => True

/-- The nodes are a tree, and what is to be allocated next is free. -/
structure Fresh (ns : Nodes) : Prop where
  tree : ns.Tree
  free : ∀ n, ns.next ≤ n → ns.node n = none

/-- Besides, every node that is out is in the list of another one. -/
structure DirInv (w : DirWorld) : Prop where
  fresh : Fresh w.nodes
  linked : ∀ vn ∈ w.refs, ∃ d node, d ≠ vn ∧ w.nodes.node d = some node ∧ vn ∈ node.children

/-! ## Creating a node -/

/-- What `tmpfs_create` does to the nodes. -/
structure Created (ns : Nodes) (d : ℕ) (name : CStr) (t : VnodeType) (ns' : Nodes) : Prop where
  parent : ∃ node, ns.node d = some node ∧
    ns'.node d = some { node with children := node.children ++ [ns.next] }
  child : ns'.node ns.next = some ⟨name, t, []⟩
  other : ∀ n, n ≠ d → n ≠ ns.next → ns'.node n = ns.node n
  next : ns'.next = ns.next + 1

section

variable {ns ns' : Nodes} {self child : ℕ} {name : CStr} {t : VnodeType} {st : ℤ}

theorem Fresh.ne_next (hf : Fresh ns) {n : ℕ} {node : Node} (hn : ns.node n = some node) : n ≠ ns.next := by
  rintro rfl
  exact some_ne_none node (hn.symm.trans (hf.free _ (Nat.le_refl _)))

theorem Fresh.congr (hf : Fresh ns) (hnode : ns'.node = ns.node) (hnext : ns'.next = ns.next) :
    Fresh ns' := by
  refine ⟨?_, ?_⟩
  · unfold Nodes.Tree
    rw [hnode]
    exact hf.tree
  · rw [hnode, hnext]
    exact hf.free

theorem tmpfsCreate_some (hf : Fresh ns) (h : tmpfsCreate ns self name t = some (st, child, ns')) :
    st = eok ∧ child = ns.next ∧ Created ns self name t ns' := by
  obtain ⟨parent, hparent, h⟩ := bind_eq_some_iff.mp h
  obtain ⟨_, -, h⟩ := bind_eq_some_iff.mp h
  have hne : ns.next ≠ self := (hf.ne_next hparent).symm
  cases h
  refine ⟨rfl, rfl, ⟨parent, hparent, ?_⟩, ?_, fun n hself hn => ?_, rfl⟩
  · exact update_self ..
  · exact (update_of_ne hne ..).trans (update_self ..)
  · exact (update_of_ne hself ..).trans (update_of_ne hn ..)

namespace Created

variable (h : Created ns self name t ns') (hf : Fresh ns)
include h hf

theorem old {n : ℕ} {node : Node} (hn : ns.node n = some node) :
    ∃ l, ns'.node n = some { node with children := node.children ++ l } ∧
      (l = [] ∨ n = self ∧ l = [ns.next]) := by
  by_cases hself : n = self
  · subst hself
    obtain ⟨parent, hparent, hnew⟩ := h.parent
    cases hn.symm.trans hparent
    exact ⟨[ns.next], hnew, Or.inr ⟨rfl, rfl⟩⟩
  · refine ⟨[], ?_, Or.inl rfl⟩
    rw [h.other n hself (hf.ne_next hn), hn, List.append_nil]

theorem ne_none {n : ℕ} (hn : ns.node n ≠ none) : ns'.node n ≠ none := by
  obtain ⟨node, hnode⟩ := ne_none_iff_exists'.mp hn
  obtain ⟨l, hl, -⟩ := h.old hf hnode
  rw [hl]
  exact some_ne_none _

omit hf in
theorem cases {n : ℕ} {node' : Node} (hn : ns'.node n = some node') :
    n = ns.next ∧ node' = ⟨name, t, []⟩ ∨ ∃ node, ns.node n = some node := by
  by_cases hnext : n = ns.next
  · subst hnext
    exact Or.inl ⟨rfl, Option.some.inj (hn.symm.trans h.child)⟩
  · refine Or.inr ?_
    by_cases hself : n = self
    · subst hself
      obtain ⟨parent, hparent, -⟩ := h.parent
      exact ⟨parent, hparent⟩
    · rw [h.other n hself hnext] at hn
      exact ⟨node', hn⟩

theorem fresh : Fresh ns' where
  tree := by
    intro n node' hn
    rcases h.cases hn with ⟨rfl, rfl⟩ | ⟨node, hnode⟩
    · exact ⟨not_mem_nil, fun _ hc => by cases hc⟩
    · obtain ⟨l, hl, hcase⟩ := h.old hf hnode
      cases hn.symm.trans hl
      obtain ⟨hself, hall⟩ := hf.tree n node hnode
      have hnew : ∀ c ∈ l, c = ns.next := by
        rcases hcase with rfl | ⟨-, rfl⟩
        · exact fun _ hc => by cases hc
        · exact fun c hc => mem_singleton.mp hc
      refine ⟨fun hmem => ?_, fun c hc => ?_⟩
      · rcases mem_append.mp hmem with hmem | hmem
        · exact hself hmem
        · exact hf.ne_next hnode (hnew n hmem)
      · rcases mem_append.mp hc with hc | hc
        · exact h.ne_none hf (hall c hc)
        · rw [hnew c hc, h.child]
          exact some_ne_none _
  free := by
    intro n hn
    rw [h.next] at hn
    have hold := hf.free n (by omega)
    rw [h.other n ?_ (by omega), hold]
    rintro rfl
    obtain ⟨parent, hparent, -⟩ := h.parent
    cases hparent.symm.trans hold

theorem name_eq {n : ℕ} (hn : ns.node n ≠ none) :
    (ns'.node n).map Node.name = (ns.node n).map Node.name := by
  obtain ⟨node, hnode⟩ := ne_none_iff_exists'.mp hn
  obtain ⟨l, hl, -⟩ := h.old hf hnode
  rw [hl, hnode]
  rfl

theorem child? {d c : ℕ} {s : List UInt8} (hch : ns.child? d s = some c) : ns'.child? d s = some c := by
  obtain ⟨node, hnode, hdir, hfind⟩ := child?_eq_some.mp hch
  obtain ⟨l, hl, -⟩ := h.old hf hnode
  refine child?_eq_some.mpr ⟨_, hl, hdir, ?_⟩
  have hnames : ∀ x ∈ node.children, ((ns'.node x).any fun child => child.name.chars = s) =
      (ns.node x).any fun child => child.name.chars = s := by
    intro x hx
    have hname := congrArg (Option.any fun name : CStr => name.chars = s)
      (h.name_eq hf ((hf.tree d node hnode).2 x hx))
    rwa [Option.any_map, Option.any_map] at hname
  rw [find?_append, find?_congr hnames, hfind]
  rfl

end Created

end

/-! ## Releasing a node -/

section

variable {ns ns' : Nodes} {vn : ℕ} {b : Bool}

theorem vnRele_node_of_ne (h : vnRele .tmpfs ns vn = some (b, ns')) (hne : ns.refCount vn ≠ 1) :
    ns'.node = ns.node ∧ ns'.next = ns.next := by
  obtain ⟨node, -, h⟩ := bind_eq_some_iff.mp h
  dsimp only at h
  split at h
  · next hz =>
    have hz : ns.refCount vn - 1 = 0 := (update_self ..).symm.trans hz
    exact absurd (UInt64.sub_eq_iff_eq_add.mp hz) hne
  · cases h
    exact ⟨rfl, rfl⟩

theorem vnRele_node_of_eq (h : vnRele .tmpfs ns vn = some (b, ns')) (heq : ns.refCount vn = 1) :
    ns'.node = update ns.node vn none := by
  obtain ⟨node, -, h⟩ := bind_eq_some_iff.mp h
  dsimp only at h
  split at h
  · obtain ⟨closed, hclose, h⟩ := bind_eq_some_iff.mp h
    obtain ⟨_, -, hclose⟩ := bind_eq_some_iff.mp hclose
    cases h
    cases hclose
    rfl
  · next hz =>
    refine absurd ?_ hz
    rw [update_self, heq]
    rfl

end

/-! ## The calls -/

section

variable {fresh : ℕ → ℕ → ℕ → UInt8} {w w' : DirWorld} {op : DirOp}

theorem dirStep_cases (hf : Fresh w.nodes) (hkeep : KeepsLast w op) (h : dirStep fresh w op = some w') :
    (∃ self name t, Created w.nodes self name t w'.nodes ∧ w'.refs = w.nodes.next :: w.refs ∧
      w'.files = update w.files w.nodes.next ⟨0, [], 0⟩) ∨
    (w'.nodes.node = w.nodes.node ∧ w'.nodes.next = w.nodes.next ∧
      (∀ vn ∈ w'.refs, vn ∈ w.refs ∨ ∃ d name, w.nodes.child? d name = some vn) ∧
      ∀ c, (∀ offset buffer count, op ≠ .write c offset buffer count) → w'.files c = w.files c) := by
  cases op with
  | create self name t =>
    obtain ⟨⟨st, child, nodes⟩, hcreate, h⟩ := bind_eq_some_iff.mp h
    cases h
    obtain ⟨-, rfl, hc⟩ := tmpfsCreate_some hf hcreate
    exact Or.inl ⟨self, name, t, hc, rfl, rfl⟩
  | openName self name =>
    obtain ⟨⟨st, r⟩, hopen, h⟩ := bind_eq_some_iff.mp h
    obtain rfl := openNode_some hopen
    cases h
    refine Or.inr ?_
    cases hch : w.nodes.child? self name.chars with
    | none => exact ⟨rfl, rfl, fun _ => Or.inl, fun _ _ => rfl⟩
    | some c =>
      refine ⟨rfl, rfl, fun vn hvn => ?_, fun _ _ => rfl⟩
      rcases mem_cons.mp hvn with rfl | hvn
      · exact Or.inr ⟨self, _, hch⟩
      · exact Or.inl hvn
  | write vn offset buffer count =>
    obtain ⟨node, -, h⟩ := bind_eq_some_iff.mp h
    obtain ⟨⟨out, file⟩, -, h⟩ := bind_eq_some_iff.mp h
    cases h
    refine Or.inr ⟨rfl, rfl, fun _ => Or.inl, fun c hop => update_of_ne ?_ ..⟩
    rintro rfl
    exact hop offset buffer count rfl
  | rele vn =>
    obtain ⟨_, -, h⟩ := bind_eq_some_iff.mp h
    obtain ⟨⟨b, nodes⟩, hrele, h⟩ := bind_eq_some_iff.mp h
    cases h
    obtain ⟨hnode, hnext⟩ := vnRele_node_of_ne hrele hkeep
    exact Or.inr ⟨hnode, hnext, fun _ hvn => Or.inl (mem_of_mem_erase hvn), fun _ _ => rfl⟩

theorem dirStep_inv (hw : DirInv w) (hkeep : KeepsLast w op) (h : dirStep fresh w op = some w') :
    DirInv w' := by
  rcases dirStep_cases hw.fresh hkeep h with ⟨self, name, t, hc, hrefs, -⟩ | ⟨hnode, hnext, hrefs, -⟩
  · refine ⟨hc.fresh hw.fresh, fun vn hvn => ?_⟩
    rw [hrefs] at hvn
    rcases mem_cons.mp hvn with rfl | hvn
    · obtain ⟨parent, hparent, hnew⟩ := hc.parent
      exact ⟨self, _, hw.fresh.ne_next hparent, hnew, mem_append_right _ (mem_singleton_self _)⟩
    · obtain ⟨d, node, hne, hnode, hmem⟩ := hw.linked vn hvn
      obtain ⟨l, hl, -⟩ := hc.old hw.fresh hnode
      exact ⟨d, _, hne, hl, mem_append_left _ hmem⟩
  · refine ⟨hw.fresh.congr hnode hnext, fun vn hvn => ?_⟩
    rw [hnode]
    rcases hrefs vn hvn with hvn | ⟨d, name, hch⟩
    · exact hw.linked vn hvn
    · obtain ⟨node, hd, -, hfind⟩ := child?_eq_some.mp hch
      exact ⟨d, node, (child?_ne hw.fresh.tree hch).symm, hd, mem_of_find?_eq_some hfind⟩

theorem dirStep_keeps (hw : DirInv w) (hkeep : KeepsLast w op) (h : dirStep fresh w op = some w')
    {d c : ℕ} {name : List UInt8} (hch : w.nodes.child? d name = some c) :
    w'.nodes.child? d name = some c ∧
      ((∀ offset buffer count, op ≠ .write c offset buffer count) → w'.files c = w.files c) := by
  rcases dirStep_cases hw.fresh hkeep h with ⟨self, name', t, hc, -, hfiles⟩ | ⟨hnode, -, -, hfiles⟩
  · refine ⟨hc.child? hw.fresh hch, fun _ => ?_⟩
    obtain ⟨node, hnode⟩ := ne_none_iff_exists'.mp (child?_node hch)
    rw [hfiles, update_of_ne (hw.fresh.ne_next hnode)]
  · refine ⟨?_, hfiles c⟩
    unfold Nodes.child?
    rw [hnode]
    exact hch

theorem linked_of_keepsLast (hw : DirInv w) (hkeep : KeepsLast w op) (h : dirStep fresh w op = some w') :
    LinkedAllocated w'.nodes ∧ Reopens w op w' := by
  have hw' := dirStep_inv hw hkeep h
  refine ⟨fun d node hnode => (hw'.fresh.tree d node hnode).2, fun d name c hch => ⟨?_, ?_⟩⟩
  · exact ⟨_, openNode_child hw'.fresh.tree (dirStep_keeps hw hkeep h hch).1⟩
  · exact (dirStep_keeps hw hkeep h hch).2

theorem keepsLast_of_linked (hw : DirInv w) (h : dirStep fresh w op = some w')
    (hlinked : LinkedAllocated w'.nodes) : KeepsLast w op := by
  cases op with
  | rele vn =>
    intro heq
    obtain ⟨_, hguard, h⟩ := bind_eq_some_iff.mp h
    obtain ⟨⟨b, nodes⟩, hrele, h⟩ := bind_eq_some_iff.mp h
    cases h
    obtain ⟨d, node, hne, hnode, hmem⟩ := hw.linked vn ((guard_eq_some' _).mp hguard)
    have hfree := vnRele_node_of_eq hrele heq
    refine hlinked d node ?_ vn hmem ?_
    · dsimp only
      rw [hfree, update_of_ne hne]
      exact hnode
    · dsimp only
      rw [hfree, update_self]
  | create | openName | write => trivial

end

/-- In a run the linked nodes stay allocated, with their contents, exactly if no last reference is
released. -/
theorem linked_allocated_iff (fresh : ℕ → ℕ → ℕ → UInt8) {w t : DirWorld} (hw : DirInv w) {ops : List DirOp}
    (hrun : run (dirStep fresh) w ops = some t) :
    LinkedRun fresh w ops ↔ Meets (dirStep fresh) KeepsLast w ops := by
  refine meets_iff_of_run (I := DirInv) (fun s op s' hs hstep => ?_)
    (fun s op s' hs hkeep hstep => dirStep_inv hs hkeep hstep) hw hrun
  constructor
  · exact fun h => keepsLast_of_linked hs hstep (h s' hstep).1
  · exact fun hkeep t ht => linked_of_keepsLast hs hkeep ht

/-- An empty tmpfs. -/
def dirStart : DirWorld where
  nodes :=
    { node := fun
        | 0 => some ⟨.ofList [] (Eq.refl true), .dir, []⟩
        | _ => none
      refCount := fun _ => 1
      next := 1 }
  files := fun _ => ⟨0, [], 0⟩
  refs := []

theorem dirStart_inv : DirInv dirStart := by
  refine ⟨⟨?_, ?_⟩, fun _ h => by cases h⟩
  · rintro (_ | n) node h
    · cases h
      exact ⟨not_mem_nil, fun _ hc => by cases hc⟩
    · cases h
  · rintro (_ | n) hn
    · cases hn
    · rfl

def nameA : CStr := .ofList [97] (Eq.refl true)

theorem linked_allocated_sample :
    DirInv dirStart ∧ ∃ t, run (dirStep fun _ _ _ => 0) dirStart
        [.create 0 nameA .reg, .openName 0 nameA, .rele 1] = some t ∧
      LinkedRun (fun _ _ _ => 0) dirStart [.create 0 nameA .reg, .openName 0 nameA, .rele 1] := by
  obtain ⟨t, ht⟩ : ∃ t, run (dirStep fun _ _ _ => 0) dirStart
      [.create 0 nameA .reg, .openName 0 nameA, .rele 1] = some t :=
    ne_none_iff_exists'.mp (by decide +kernel)
  refine ⟨dirStart_inv, t, ht, (linked_allocated_iff _ dirStart_inv ht).mpr ?_⟩
  refine ⟨trivial, fun s hs => ⟨trivial, fun s' hs' => ⟨?_, fun _ _ => trivial⟩⟩⟩
  cases hs
  cases hs'
  exact show (2 : UInt64) ≠ 1 by decide

/-- A file that is created and released is in the list of its directory, but is freed; the next
`tmpfs_open` reads it. -/
theorem released_file_is_linked :
    ((run (dirStep fun _ _ _ => 0) dirStart [.create 0 nameA .reg, .rele 1]).map fun t =>
      ((t.nodes.node 0).map Node.children, t.nodes.node 1)) = some (some [1], none) ∧
    run (dirStep fun _ _ _ => 0) dirStart [.create 0 nameA .reg, .rele 1, .openName 0 nameA] = none := by
  refine ⟨by decide +kernel, rfl⟩

end LykOS.Tmpfs
