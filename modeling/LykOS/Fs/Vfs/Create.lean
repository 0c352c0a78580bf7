import LykOS.Fs.Tmpfs.Dir

/-!
# Creating names

`vfs_create` on a tmpfs. It cuts the path at its last slash, opens what is in front with `vfs_open`, and
calls `tmpfs_create` there, which does not look whether the name exists. The call returns `EOK` and adds a
second node with the name. A slash in front of the last one makes `vfs_open` open the empty name, so
the node can also end up one level deeper than it should (`opened`).
-/

namespace LykOS.Vfs

open CStr Tmpfs List

/-- `vfs_create(path, t, &out)`: the status, the vnode left in `*out`, and the nodes. The parts of the path
must fit `parent_path[256]` and `child_name[64]`. -/
def vfsCreate (root : ℕ) (ns : Nodes) (path : CStr) (t : VnodeType) : Option (ℤ × Option ℕ × Nodes) :=
  match strrchr path slash with
  | none => some (-einval, none, ns)
  | some c => do
    guard (c < 256)
    let childName := strAt path.chars (c + 1)
    guard (childName.chars.length < 64)
    let r ← vfsOpen (rootMount root) ns (path.take c)
    if r.status < 0 then return (-enoent, none, r.nodes)
    else
      let (st, out, ns) ← tmpfsCreate r.nodes (← r.out) childName t
      return (st, some out, ns)

/-! ## Names -/

def Nodes.names (ns : Nodes) (node : Node) : List (Option CStr) :=
  node.children.map fun c => (ns.node c).map Node.name

/-- No directory has two children with the same name. -/
def NamesUnique (ns : Nodes) : Prop :=
  ∀ d node, ns.node d = some node → node.type = .dir → (ns.names node).Nodup

/-- The path ends in a name that the directory `d` in front of it has already. -/
def NameExists (ns : Nodes) (root : ℕ) (path : CStr) (d : ℕ) : Prop :=
  ∃ parent name, path.chars = parent ++ slash :: name ∧ slash ∉ name ∧
    ns.lookup root (components slash parent) = some d ∧ ns.child? d name ≠ none

/-- The name at the end of the path is new: in the directory in front of it, and in the one that `vfs_open`
opens for that. -/
def NewName (ns : Nodes) (root : ℕ) (path : CStr) : Prop :=
  ∀ parent name, path.chars = parent ++ slash :: name → slash ∉ name → ∀ d,
    ns.lookup root (components slash parent) = some d ∨ ns.lookup root (opened parent) = some d →
    ns.child? d name = none

/-! ## What `vfs_create` does -/

section

variable {ns ns' : Nodes} {root d : ℕ} {path name : CStr} {t : VnodeType} {st : ℤ} {out : Option ℕ}

theorem vfsCreate_some (hf : Fresh ns) (h : vfsCreate root ns path t = some (st, out, ns')) :
    (slash ∉ path.chars ∧ st = -einval ∧ ns' = ns) ∨
    ∃ parent, ∃ name : CStr, ∃ d, path.chars = parent ++ slash :: name.chars ∧ slash ∉ name.chars ∧
      ns.lookup root (opened parent) = some d ∧ st = eok ∧ out = some ns.next ∧
      Created ns d name t ns' := by
  unfold vfsCreate at h
  rcases last_cases slash path.chars with hno | ⟨parent, name, hpath, hname⟩
  · have hchr : strrchr path slash = none := strrchrLoop_of_not_mem hno 0 none
    rw [hchr] at h
    cases h
    exact Or.inl ⟨hno, rfl, rfl⟩
  · rw [strrchr_append hpath hname] at h
    obtain ⟨_, -, h⟩ := Option.bind_eq_some_iff.mp h
    obtain ⟨_, -, h⟩ := Option.bind_eq_some_iff.mp h
    obtain ⟨r, hr, h⟩ := Option.bind_eq_some_iff.mp h
    obtain ⟨d, hd, rfl⟩ := vfsOpen_some hr
    have htake : (path.take parent.length).chars = parent :=
      (congrArg (List.take parent.length) hpath).trans take_left
    have hchild := strAt_behind hpath
    rw [htake] at hd h
    have heok : ¬ eok < 0 := by decide
    dsimp only at h
    rw [if_neg heok, Option.bind_eq_bind, Option.bind_some] at h
    obtain ⟨⟨st', child, ns₁⟩, hcreate, h⟩ := Option.bind_eq_some_iff.mp h
    cases h
    obtain ⟨hnode, hnext⟩ := holdAll_node (ns.walk root (opened parent)) ns
    obtain ⟨rfl, rfl, hc⟩ := tmpfsCreate_some (hf.congr hnode hnext) hcreate
    rw [← hchild] at hpath hname
    refine Or.inr ⟨parent, _, d, hpath, hname, hd, rfl, congrArg some hnext, ?_⟩
    exact ⟨by rw [← hnode, ← hnext]; exact hc.parent, by rw [← hnext]; exact hc.child,
      by rw [← hnode, ← hnext]; exact hc.other, by rw [← hnext]; exact hc.next⟩

/-! ## Unique names -/

theorem child?_eq_none_iff {node : Node} (hd : ns.node d = some node) (hdir : node.type = .dir) :
    ns.child? d name.chars = none ↔ some name ∉ ns.names node := by
  have hfind : ns.child? d name.chars =
      node.children.find? fun c => (ns.node c).any fun child => child.name.chars = name.chars := by
    have hguard : (guard (node.type = .dir) : Option Unit) = some () := if_pos hdir
    unfold Nodes.child?
    rw [hd, Option.bind_eq_bind, Option.bind_some, hguard]
    rfl
  rw [hfind, find?_eq_none]
  unfold Nodes.names
  rw [mem_map, not_exists]
  refine forall_congr' fun c => ?_
  rw [not_and]
  refine imp_congr_right fun _ => not_congr ?_
  cases ns.node c with
  | none => simp
  | some child =>
    rw [Option.any_some, decide_eq_true_iff, Option.map_some, Option.some.injEq]
    exact ⟨chars_inj, congrArg CStr.chars⟩

variable (h : Created ns d name t ns') (hf : Fresh ns)
include h hf

theorem names_of_created {n : ℕ} {node : Node} (hn : ns.node n = some node) :
    ns'.names node = ns.names node :=
  map_congr_left fun c hc => h.name_eq hf ((hf.tree n node hn).2 c hc)

theorem namesUnique_iff (hu : NamesUnique ns) : NamesUnique ns' ↔ ns.child? d name.chars = none := by
  obtain ⟨parent, hparent, hnew⟩ := h.parent
  have hnames : ns'.names { parent with children := parent.children ++ [ns.next] } =
      ns.names parent ++ [some name] := by
    have happ : ns'.names { parent with children := parent.children ++ [ns.next] } =
        ns'.names parent ++ [(ns'.node ns.next).map Node.name] := map_append
    rw [happ, names_of_created h hf hparent, h.child]
    rfl
  constructor
  · intro hu'
    by_cases hdir : parent.type = .dir
    · rw [child?_eq_none_iff hparent hdir]
      have hnodup := hu' d _ hnew hdir
      rw [hnames, nodup_append] at hnodup
      exact fun hmem => hnodup.2.2 _ hmem _ (mem_singleton_self _) rfl
    · refine Option.eq_none_iff_forall_ne_some.mpr fun c hc => ?_
      obtain ⟨node, hnode, hdir', -⟩ := child?_eq_some.mp hc
      cases hnode.symm.trans hparent
      exact hdir hdir'
  · intro hnone n node' hn hdir
    rcases h.cases hn with ⟨-, rfl⟩ | ⟨node, hnode⟩
    · exact nodup_nil
    · obtain ⟨l, hl, hcase⟩ := h.old hf hnode
      cases hn.symm.trans hl
      rcases hcase with rfl | ⟨rfl, rfl⟩
      · rw [List.append_nil, names_of_created h hf hnode]
        exact hu n node hnode hdir
      · cases hparent.symm.trans hnode
        rw [hnames]
        refine nodup_append.mpr ⟨hu n parent hparent hdir, pairwise_singleton _ _, ?_⟩
        rintro a ha b hb rfl
        rw [mem_singleton] at hb
        exact (child?_eq_none_iff hparent hdir).mp hnone (hb ▸ ha)

end

/-- The names are unique after the call, and it failed, without a change to the directory, if the name
was there. -/
def CreateRight (root : ℕ) (ns : Nodes) (path : CStr) (st : ℤ) (ns' : Nodes) : Prop :=
  NamesUnique ns' ∧ ∀ d, NameExists ns root path d → st < 0 ∧ ns'.node d = ns.node d

theorem createRight_iff {ns ns' : Nodes} {root : ℕ} {path : CStr} {t : VnodeType} {st : ℤ} {out : Option ℕ}
    (hf : Fresh ns) (hu : NamesUnique ns) (h : vfsCreate root ns path t = some (st, out, ns')) :
    CreateRight root ns path st ns' ↔ NewName ns root path := by
  rcases vfsCreate_some hf h with ⟨hno, -, rfl⟩ | ⟨parent, name, d, hpath, hname, hd, rfl, -, hc⟩
  · have hslash : ∀ parent name, path.chars ≠ parent ++ slash :: name := by
      rintro parent name heq
      exact hno (heq ▸ mem_append_right _ mem_cons_self)
    refine iff_of_true ⟨hu, ?_⟩ fun parent name heq => absurd heq (hslash parent name)
    rintro d ⟨parent, name, heq, -⟩
    exact absurd heq (hslash parent name)
  · have hsplit : ∀ {parent' name'}, path.chars = parent' ++ slash :: name' → slash ∉ name' →
        parent = parent' ∧ name.chars = name' :=
      fun heq hname' => last_unique (hpath.symm.trans heq) hname hname'
    constructor
    · rintro ⟨hu', hex⟩ parent' name' heq hname' d' hd'
      obtain ⟨rfl, rfl⟩ := hsplit heq hname'
      rcases hd' with hd' | hd'
      · by_contra hch
        exact absurd (hex d' ⟨parent, _, heq, hname', hd', hch⟩).1 (by decide)
      · cases hd.symm.trans hd'
        exact (namesUnique_iff hc hf hu).mp hu'
    · intro hnew
      refine ⟨(namesUnique_iff hc hf hu).mpr (hnew parent _ hpath hname d (Or.inr hd)), ?_⟩
      rintro d' ⟨parent', name', heq, hname', hd', hch⟩
      obtain ⟨rfl, rfl⟩ := hsplit heq hname'
      exact absurd (hnew parent _ heq hname' d' (Or.inl hd')) hch

theorem vfsCreate_keeps {ns ns' : Nodes} {root : ℕ} {path : CStr} {t : VnodeType} {st : ℤ} {out : Option ℕ}
    (hf : Fresh ns) (hu : NamesUnique ns) (hnew : NewName ns root path)
    (h : vfsCreate root ns path t = some (st, out, ns')) :
    Fresh ns' ∧ NamesUnique ns' ∧ ns.next ≤ ns'.next ∧
      (¬ st < 0 → out = some ns.next ∧ ns.next < ns'.next) := by
  have hunique := ((createRight_iff hf hu h).mpr hnew).1
  rcases vfsCreate_some hf h with ⟨-, rfl, rfl⟩ | ⟨parent, name, d, -, -, -, -, rfl, hc⟩
  · exact ⟨hf, hunique, Nat.le_refl _, fun hst => absurd (by decide) hst⟩
  · have hnext := hc.next
    exact ⟨hc.fresh hf, hunique, by omega, fun _ => ⟨rfl, by omega⟩⟩

end LykOS.Vfs
