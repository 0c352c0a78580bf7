import LykOS.Fs.Initrd.Entry

/-!
# The tree of an archive

`initrd_init` on a whole archive. The nodes are numbered in the order of the entries, and node `i + 1` is at
the path of entry `i`; `Built` says this of the nodes after a part of the archive, and the loop keeps it
as long as the names end in their fields. A name that does not gives its node another name for good, so the
tree reflects the archive exactly if there is none (`initrd_reflects_iff`).
-/

namespace LykOS.Initrd

open CStr Vfs Pathname Relation Function List
open Option hiding guard

/-! ## Archives -/

def archive (es : List Entry) : List UInt8 := es.flatMap fun e => e.header ++ e.content

def entryData (address : ℕ) (es : List Entry) (i : ℕ) : ℕ := address + (archive (es.take i)).length + 512

/-- The names are different, and directories are in front of what is in them. -/
structure ValidArchive (es : List Entry) : Prop where
  valid : ∀ e ∈ es, e.Valid
  distinct : (es.map fun e => joined e.names).Nodup
  parents : ∀ (i : ℕ) (e : Entry), es[i]? = some e → e.names.dropLast = [] ∨
    ∃ (j : ℕ) (d : Entry), j < i ∧ es[j]? = some d ∧ d.names = e.names.dropLast ∧ d.type = .dir

def InTree (ns : Nodes) : ℕ → Prop :=
  ReflTransGen (fun a b => ∃ node, ns.node a = some node ∧ b ∈ node.children) rootNode

/-- Opening the components of an entry one after the other leads to its node, and there are no other nodes
but the root. -/
structure Reflects (address : ℕ) (t : Ramdisk) (es : List Entry) : Prop where
  entries : ∀ (i : ℕ) (e : Entry), es[i]? = some e → ∃ vn node,
    openPath t.nodes rootNode e.comps = some vn ∧ t.nodes.node vn = some node ∧ node.type = e.type ∧
      (t.size vn).toNat = e.size ∧ t.data vn = entryData address es i
  only : ∀ vn, InTree t.nodes vn → vn = rootNode ∨ ∃ e ∈ es, openPath t.nodes rootNode e.comps = some vn

section

variable {es done : List Entry} {e : Entry}

theorem archive_append (a b : List Entry) : archive (a ++ b) = archive a ++ archive b :=
  flatMap_append ..

theorem archive_cons (e : Entry) (es : List Entry) :
    archive (e :: es) = e.header ++ (e.content ++ archive es) := by
  unfold archive
  rw [flatMap_cons, append_assoc]

theorem entryData_append {i : ℕ} (address : ℕ) (h : i ≤ done.length) (rest : List Entry) :
    entryData address (done ++ rest) i = entryData address done i := by
  unfold entryData
  rw [take_append_of_le_length h]

theorem ValidArchive.of_append {rest : List Entry} (h : ValidArchive (done ++ rest)) :
    ValidArchive done where
  valid e he := h.valid e (mem_append_left _ he)
  distinct := by
    have hd := h.distinct
    rw [map_append] at hd
    exact (nodup_append.mp hd).1
  parents i e hi := by
    have hlt := (List.getElem?_eq_some_iff.mp hi).1
    rcases h.parents i e (by rw [getElem?_append_left hlt, hi]) with hnil | ⟨j, d, hj, hd, hnames⟩
    · exact Or.inl hnil
    · exact Or.inr ⟨j, d, hj, by rwa [getElem?_append_left (by omega)] at hd, hnames⟩

theorem ValidArchive.index_unique (h : ValidArchive es) {i j : ℕ} {e d : Entry} (hi : es[i]? = some e)
    (hj : es[j]? = some d) (hnames : e.names = d.names) : i = j := by
  have hlt := (List.getElem?_eq_some_iff.mp hi).1
  refine (getElem?_inj (by rwa [length_map]) h.distinct).mp ?_
  rw [getElem?_map, getElem?_map, hi, hj, map_some, map_some, hnames]

theorem ValidArchive.names_ne (h : ValidArchive es) {i : ℕ} (hi : es[i]? = some e) : e.names ≠ [] :=
  (h.valid e (mem_of_getElem? hi)).names_ne

theorem length_archive_lt (h : ∀ e ∈ es, e.Valid) {i j : ℕ} (hij : i < j) (hj : j ≤ es.length) :
    (archive (es.take i)).length < (archive (es.take j)).length := by
  have hsplit : es.take j = es.take i ++ (es.drop i).take (j - i) := by
    rw [← take_add, Nat.add_sub_cancel' (Nat.le_of_lt hij)]
  have hlt : i < es.length := by omega
  obtain ⟨k, hk⟩ : ∃ k, j - i = k + 1 := ⟨j - i - 1, by omega⟩
  rw [hsplit, archive_append, hk, drop_eq_getElem_cons hlt, take_succ_cons, archive_cons,
    length_append, length_append, (h _ (getElem_mem hlt)).header_length]
  omega

theorem length_le_archive (h : ∀ e ∈ es, e.Valid) : es.length ≤ (archive es).length := by
  induction es with
  | nil => exact Nat.le_refl _
  | cons e es ih =>
    have hrest := ih fun d hd => h d (mem_cons_of_mem _ hd)
    rw [archive_cons, length_append, length_append, (h e mem_cons_self).header_length, length_cons]
    omega

theorem entryData_inj (h : ∀ e ∈ es, e.Valid) {address i j : ℕ} (hi : i < es.length) (hj : j < es.length)
    (heq : entryData address es i = entryData address es j) : i = j := by
  unfold entryData at heq
  rcases Nat.lt_trichotomy i j with hij | hij | hij
  · have := length_archive_lt h hij (Nat.le_of_lt hj)
    omega
  · exact hij
  · have := length_archive_lt h hij (Nat.le_of_lt hi)
    omega

end

/-! ## The nodes of a part of the archive -/

def pathOf (es : List Entry) : ℕ → List (List UInt8)
  | 0 => []
  | i + 1 => (es[i]?.map Entry.names).getD []

/-- The nodes are the root and one for each entry, where it belongs. -/
structure Built (address : ℕ) (t : Ramdisk) (es : List Entry) : Prop where
  next : t.nodes.next = es.length + 1
  unused : ∀ vn, t.nodes.next ≤ vn → t.nodes.node vn = none
  root : ∃ node, t.nodes.node rootNode = some node ∧ node.type = .dir
  entry : ∀ (i : ℕ) (e : Entry), es[i]? = some e → ∃ node, t.nodes.node (i + 1) = some node ∧
    e.names.getLast? = some node.name.chars ∧ node.type = e.type ∧ (t.size (i + 1)).toNat = e.size ∧
      t.data (i + 1) = entryData address es i
  child : ∀ vn node, t.nodes.node vn = some node → ∀ c, c ∈ node.children ↔
    ∃ (i : ℕ) (e : Entry), es[i]? = some e ∧ c = i + 1 ∧ e.names.dropLast = pathOf es vn

section

variable {address : ℕ} {t : Ramdisk} {es : List Entry} {vn : ℕ}

theorem built_empty (address : ℕ) : Built address emptyRamdisk [] where
  next := rfl
  unused vn hvn := if_neg (show vn ≠ rootNode from Nat.ne_of_gt hvn)
  root := ⟨_, rfl, rfl⟩
  entry i e hi := by cases hi
  child vn node hnode c := by
    have hvn : vn = rootNode := by
      by_contra hne
      rw [show emptyRamdisk.nodes.node vn = none from if_neg hne] at hnode
      cases hnode
    subst hvn
    obtain rfl : ⟨.ofList [47] rfl, .dir, []⟩ = node := Option.some.inj hnode
    refine iff_of_false not_mem_nil ?_
    rintro ⟨i, e, hi, -⟩
    cases hi

variable {node : Node} {i : ℕ} {e : Entry}

theorem Built.node_cases (h : Built address t es) (hnode : t.nodes.node vn = some node) :
    vn = rootNode ∨ ∃ (i : ℕ) (e : Entry), vn = i + 1 ∧ es[i]? = some e := by
  cases vn with
  | zero => exact Or.inl rfl
  | succ i =>
    refine Or.inr ⟨i, es.get ⟨i, ?_⟩, rfl, ?_⟩
    · by_contra hge
      have hnone := h.unused (i + 1) (by rw [h.next]; omega)
      rw [hnone] at hnode
      cases hnode
    · rw [get_eq_getElem, getElem?_eq_getElem]

theorem pathOf_succ (h : es[i]? = some e) : pathOf es (i + 1) = e.names := by
  show (es[i]?.map Entry.names).getD [] = e.names
  rw [h]
  rfl

theorem Built.path_inj (h : Built address t es) (hva : ValidArchive es) {a b : ℕ} {node' : Node}
    (ha : t.nodes.node a = some node) (hb : t.nodes.node b = some node')
    (hpath : pathOf es a = pathOf es b) : a = b := by
  rcases h.node_cases ha with rfl | ⟨i, e, rfl, hi⟩
  · rcases h.node_cases hb with rfl | ⟨j, d, rfl, hj⟩
    · rfl
    · rw [pathOf_succ hj] at hpath
      exact absurd hpath.symm (hva.names_ne hj)
  · rw [pathOf_succ hi] at hpath
    rcases h.node_cases hb with rfl | ⟨j, d, rfl, hj⟩
    · exact absurd hpath (hva.names_ne hi)
    · rw [pathOf_succ hj] at hpath
      rw [hva.index_unique hi hj hpath]

theorem Built.tree (h : Built address t es) (hva : ValidArchive es) : t.nodes.Tree := by
  intro vn node hnode
  constructor
  · intro hmem
    obtain ⟨i, e, hi, rfl, hpath⟩ := (h.child vn node hnode vn).mp hmem
    rw [pathOf_succ hi] at hpath
    have hlen := congrArg List.length hpath
    have hpos := length_pos_iff.mpr (hva.names_ne hi)
    rw [length_dropLast] at hlen
    omega
  · intro c hc
    obtain ⟨i, e, hi, rfl, -⟩ := (h.child vn node hnode c).mp hc
    obtain ⟨node', hnode', -⟩ := h.entry i e hi
    rw [hnode']
    exact some_ne_none _

theorem Built.child_some (h : Built address t es) {name : List UInt8} {c : ℕ}
    (hc : t.nodes.child? vn name = some c) :
    ∃ (i : ℕ) (e : Entry), c = i + 1 ∧ es[i]? = some e ∧ e.names = pathOf es vn ++ [name] := by
  obtain ⟨node, hnode, -, hfind⟩ := child?_eq_some.mp hc
  obtain ⟨i, e, hi, rfl, hpath⟩ := (h.child vn node hnode c).mp (mem_of_find?_eq_some hfind)
  obtain ⟨child, hchild, hname⟩ := child?_name hc
  obtain ⟨node', hnode', hlast, -⟩ := h.entry i e hi
  obtain rfl := Option.some.inj (hchild.symm.trans hnode')
  refine ⟨i, e, rfl, hi, ?_⟩
  obtain ⟨init, hinit⟩ := getLast?_eq_some_iff.mp hlast
  rw [hinit, dropLast_concat] at hpath
  rw [hinit, hpath, hname]

theorem Built.child_eq (h : Built address t es) (hva : ValidArchive es)
    (hnode : t.nodes.node vn = some node) (hdir : node.type = .dir) (hi : es[i]? = some e)
    {name : List UInt8} (hnames : e.names = pathOf es vn ++ [name]) :
    t.nodes.child? vn name = some (i + 1) := by
  cases hc : t.nodes.child? vn name with
  | some c =>
    obtain ⟨j, d, rfl, hj, hd⟩ := h.child_some hc
    rw [hva.index_unique hj hi (hd.trans hnames.symm)]
  | none =>
    obtain ⟨node', hnode', hlast, -⟩ := h.entry i e hi
    have hmem : i + 1 ∈ node.children := by
      refine (h.child vn node hnode _).mpr ⟨i, e, hi, rfl, ?_⟩
      rw [hnames, dropLast_concat]
    rw [hnames, getLast?_concat] at hlast
    unfold Nodes.child? at hc
    simp only [hnode, bind_eq_bind, Option.bind_some, guard, if_pos hdir, pure, find?_eq_none] at hc
    refine absurd ?_ (hc (i + 1) hmem)
    rw [hnode', any_some, Option.some.inj hlast]
    exact decide_eq_true rfl

theorem Built.parent (h : Built address t es) {names : List (List UInt8)}
    (hparent : names = [] ∨ ∃ (j : ℕ) (d : Entry), es[j]? = some d ∧ d.names = names ∧ d.type = .dir ∧
      t.nodes.lookup rootNode d.names = some (j + 1)) :
    ∃ u node, t.nodes.lookup rootNode names = some u ∧ t.nodes.node u = some node ∧ node.type = .dir ∧
      pathOf es u = names := by
  rcases hparent with rfl | ⟨j, d, hd, rfl, hdir, hlook⟩
  · obtain ⟨node, hnode, hdir⟩ := h.root
    exact ⟨rootNode, node, rfl, hnode, hdir, rfl⟩
  · obtain ⟨node, hnode, -, htype, -⟩ := h.entry j d hd
    exact ⟨j + 1, node, hlook, hnode, htype.trans hdir, pathOf_succ hd⟩

theorem Built.lookup_path (h : Built address t es) (hva : ValidArchive es) (hi : es[i]? = some e) :
    t.nodes.lookup rootNode e.names = some (i + 1) := by
  induction i using Nat.strong_induction_on generalizing e with
  | _ i ih =>
    obtain ⟨last, heq, -⟩ := (hva.valid e (mem_of_getElem? hi)).names_eq
    obtain ⟨u, node, hu, hnode, hdir, hpath⟩ := h.parent <| (hva.parents i e hi).imp_right
      fun ⟨j, d, hj, hd, hnames, hdir⟩ => ⟨j, d, hd, hnames, hdir, ih j hj hd⟩
    have hchild := h.child_eq hva hnode hdir hi (by rw [hpath]; exact heq)
    rw [heq, lookup_append, hu, Option.bind_some]
    unfold Nodes.lookup
    rw [hchild]
    rfl

theorem Built.reflects (h : Built address t es) (hva : ValidArchive es) : Reflects address t es where
  entries i e hi := by
    obtain ⟨node, hnode, -, htype, hsize, hdata⟩ := h.entry i e hi
    exact ⟨i + 1, node, openPath_of_lookup (h.tree hva) (h.lookup_path hva hi), hnode, htype, hsize, hdata⟩
  only vn hvn := by
    have hcases : vn = rootNode ∨ ∃ (i : ℕ) (e : Entry), vn = i + 1 ∧ es[i]? = some e := by
      cases hvn with
      | refl => exact Or.inl rfl
      | tail _ hstep =>
        obtain ⟨node, hnode, hmem⟩ := hstep
        obtain ⟨i, e, hi, hc, -⟩ := (h.child _ node hnode _).mp hmem
        exact Or.inr ⟨i, e, hc, hi⟩
    refine hcases.imp_right ?_
    rintro ⟨i, e, rfl, hi⟩
    exact ⟨e, mem_of_getElem? hi, openPath_of_lookup (h.tree hva) (h.lookup_path hva hi)⟩

end

/-! ## One more entry -/

section

variable {address : ℕ} {t : Ramdisk} {done : List Entry} {e : Entry}

theorem pathOf_append {vn : ℕ} (h : vn ≤ done.length) : pathOf (done ++ [e]) vn = pathOf done vn := by
  cases vn with
  | zero => rfl
  | succ i =>
    show ((done ++ [e])[i]?.map Entry.names).getD [] = (done[i]?.map Entry.names).getD []
    rw [getElem?_append_left h]

theorem getElem?_concat_cases {i : ℕ} {d : Entry} (h : (done ++ [e])[i]? = some d) :
    i < done.length ∧ done[i]? = some d ∨ i = done.length ∧ d = e := by
  by_cases hi : i < done.length
  · rw [getElem?_append_left hi] at h
    exact Or.inl ⟨hi, h⟩
  · have hlt := (List.getElem?_eq_some_iff.mp h).1
    rw [length_append, length_singleton] at hlt
    obtain rfl : i = done.length := by omega
    rw [getElem?_concat_length] at h
    exact Or.inr ⟨rfl, (Option.some.inj h).symm⟩

theorem ValidArchive.not_below (h : ValidArchive (done ++ [e])) {i : ℕ} {d : Entry}
    (hi : (done ++ [e])[i]? = some d) : d.names.dropLast ≠ e.names := by
  intro hpath
  have hlast : (done ++ [e])[done.length]? = some e := getElem?_concat_length
  rcases h.parents i d hi with hnil | ⟨j, p, hj, hp, hnames, -⟩
  · exact h.names_ne hlast (hpath.symm.trans hnil)
  · obtain rfl := h.index_unique hp hlast (hnames.trans hpath)
    have hlt := (List.getElem?_eq_some_iff.mp hi).1
    rw [length_append, length_singleton] at hlt
    omega

theorem children_concat {vn c : ℕ} (hvn : vn ≤ done.length) :
    (∃ (i : ℕ) (d : Entry), (done ++ [e])[i]? = some d ∧ c = i + 1 ∧
        d.names.dropLast = pathOf (done ++ [e]) vn) ↔
      (∃ (i : ℕ) (d : Entry), done[i]? = some d ∧ c = i + 1 ∧ d.names.dropLast = pathOf done vn) ∨
        c = done.length + 1 ∧ e.names.dropLast = pathOf done vn := by
  rw [pathOf_append hvn]
  constructor
  · rintro ⟨i, d, hi, rfl, hd⟩
    rcases getElem?_concat_cases hi with ⟨-, hi⟩ | ⟨rfl, rfl⟩
    · exact Or.inl ⟨i, d, hi, rfl, hd⟩
    · exact Or.inr ⟨rfl, hd⟩
  · rintro (⟨i, d, hi, rfl, hd⟩ | ⟨rfl, he⟩)
    · refine ⟨i, d, ?_, rfl, hd⟩
      rw [getElem?_append_left (List.getElem?_eq_some_iff.mp hi).1, hi]
    · exact ⟨done.length, e, getElem?_concat_length, rfl, he⟩

theorem attach_node (t : Ramdisk) (ns : Nodes) (u : ℕ) (parent node : Node) (size : UInt64) (data vn : ℕ) :
    (Initrd.attach t ns u parent node size data).nodes.node vn =
      if vn = ns.next then some node
      else if vn = u then some { parent with children := parent.children ++ [ns.next] }
      else ns.node vn := by
  unfold Initrd.attach
  by_cases hv : vn = ns.next
  · rw [if_pos hv, hv]
    exact update_self ..
  · rw [if_neg hv]
    by_cases hu : vn = u
    · rw [if_pos hu, hu]
      exact (update_of_ne (hu ▸ hv) ..).trans (update_self ..)
    · rw [if_neg hu]
      exact (update_of_ne hv ..).trans (update_of_ne hu ..)

theorem attach_old {t : Ramdisk} {ns : Nodes} (hnode : ns.node = t.nodes.node) {u vn : ℕ}
    {parent old : Node} (hu : t.nodes.node u = some parent) (hvn : vn ≠ ns.next)
    (hold : t.nodes.node vn = some old) (node : Node) (size : UInt64) (data : ℕ) :
    ∃ cs, (Initrd.attach t ns u parent node size data).nodes.node vn =
      some { old with children := cs } ∧ old.children ⊆ cs := by
  rw [attach_node, if_neg hvn, hnode]
  by_cases heq : vn = u
  · rw [if_pos heq]
    rw [heq] at hold
    obtain rfl := Option.some.inj (hu.symm.trans hold)
    exact ⟨_, rfl, subset_append_left _ _⟩
  · rw [if_neg heq]
    exact ⟨old.children, hold, List.Subset.refl _⟩

/-- Only the numbers below `next` have nodes. -/
def Unused (t : Ramdisk) : Prop := ∀ vn, t.nodes.next ≤ vn → t.nodes.node vn = none

theorem attach_unused {t : Ramdisk} {ns : Nodes} (hunused : Unused t) (hnode : ns.node = t.nodes.node)
    (hnext : ns.next = t.nodes.next) {u : ℕ} {parent : Node} (hu : t.nodes.node u = some parent) (node : Node)
    (size : UInt64) (data : ℕ) : Unused (Initrd.attach t ns u parent node size data) := by
  intro vn hvn
  have hge : ns.next + 1 ≤ vn := hvn
  have hne : vn ≠ u := by
    rintro rfl
    rw [hunused vn (by omega)] at hu
    cases hu
  rw [attach_node, if_neg (by omega), if_neg hne, hnode, hunused vn (by omega)]

theorem Built.le_of_node (h : Built address t done) {vn : ℕ} {node : Node}
    (hsome : t.nodes.node vn = some node) : vn ≤ done.length := by
  by_contra hgt
  rw [h.unused vn (by rw [h.next]; omega)] at hsome
  cases hsome

theorem Built.attach (h : Built address t done) (hva : ValidArchive (done ++ [e])) {ns : Nodes}
    (hnode : ns.node = t.nodes.node) (hnext : ns.next = t.nodes.next) {u : ℕ} {parent : Node}
    (hu : t.nodes.node u = some parent) (hpath : pathOf done u = e.names.dropLast) {name : CStr}
    (hname : e.names.getLast? = some name.chars) :
    Built address (Initrd.attach t ns u parent ⟨name, e.type, []⟩ (UInt64.ofNat e.size)
      (address + (archive done).length + 512)) (done ++ [e]) := by
  have hN : ns.next = done.length + 1 := hnext.trans h.next
  have hlast : (done ++ [e])[done.length]? = some e := getElem?_concat_length
  set t' := Initrd.attach t ns u parent ⟨name, e.type, []⟩ (UInt64.ofNat e.size)
    (address + (archive done).length + 512) with ht'
  have hvn : ∀ vn, t'.nodes.node vn = if vn = done.length + 1 then some ⟨name, e.type, []⟩
      else if vn = u then some { parent with children := parent.children ++ [done.length + 1] }
      else t.nodes.node vn := by
    intro vn
    rw [ht', attach_node, hN, hnode]
  refine ⟨?_, fun vn hge => ?_, ?_, fun i d hi => ?_, fun vn node hsome c => ?_⟩
  · show ns.next + 1 = _
    rw [hN, length_append, length_singleton]
  · exact attach_unused h.unused hnode hnext hu _ _ _ vn hge
  · obtain ⟨node, hroot, hdir⟩ := h.root
    have hne : rootNode ≠ ns.next := by rw [hN]; exact (Nat.succ_ne_zero _).symm
    obtain ⟨cs, hcs, -⟩ := attach_old hnode hu hne hroot ⟨name, e.type, []⟩ _ _
    exact ⟨_, hcs, hdir⟩
  · rcases getElem?_concat_cases hi with ⟨hlt, hd⟩ | ⟨rfl, rfl⟩
    · obtain ⟨node, hsome, hlast', htype, hsize, hdata⟩ := h.entry i d hd
      have hne : i + 1 ≠ ns.next := by rw [hN]; omega
      have hsize' : t'.size (i + 1) = t.size (i + 1) := update_of_ne hne ..
      have hdata' : t'.data (i + 1) = t.data (i + 1) := update_of_ne hne ..
      obtain ⟨cs, hcs, -⟩ := attach_old hnode hu hne hsome ⟨name, e.type, []⟩ _ _
      rw [hsize', hdata', entryData_append _ (Nat.le_of_lt hlt)]
      exact ⟨_, hcs, hlast', htype, hsize, hdata⟩
    · have hsmall := (hva.valid d (mem_of_getElem? hi)).size_lt
      refine ⟨⟨name, d.type, []⟩, by rw [hvn, if_pos rfl], hname, rfl, ?_, ?_⟩
      · show (update t.size ns.next (UInt64.ofNat d.size) (done.length + 1)).toNat = d.size
        rw [hN, update_self, UInt64.toNat_ofNat']
        omega
      · show update t.data ns.next (address + (archive done).length + 512) (done.length + 1) = _
        rw [hN, update_self]
        unfold entryData
        rw [take_left]
  · rw [hvn] at hsome
    split_ifs at hsome with hv hvu
    · cases hsome
      refine iff_of_false not_mem_nil ?_
      rintro ⟨i, d, hi, -, hbelow⟩
      rw [hv, pathOf_succ hlast] at hbelow
      exact hva.not_below hi hbelow
    · cases hsome
      rw [hvu, children_concat (h.le_of_node hu), hpath, mem_append, mem_singleton,
        h.child u parent hu c, hpath]
      exact or_congr_right ⟨fun hc => ⟨hc, rfl⟩, fun hc => hc.1⟩
    · rw [children_concat (h.le_of_node hsome), h.child vn node hsome c]
      refine ⟨Or.inl, fun hc => hc.resolve_right fun hc => hvu ?_⟩
      exact h.path_inj hva.of_append hsome hu (hc.2.symm.trans hpath.symm)

end

/-! ## The loop -/

section

variable {address : ℕ} {t t' : Ramdisk} {done rest : List Entry} {e : Entry} {mem mem' tail : List UInt8}
  {hdr fuel : ℕ}

theorem Built.processEntry (h : Built address t done) (hva : ValidArchive (done ++ [e]))
    (hterm : e.Terminated) {more : List UInt8} (hdrop : mem.drop hdr = e.header ++ more)
    (hhdr : hdr = (archive done).length) :
    ∃ mem' t', Initrd.processEntry address mem t hdr = some (mem', t') ∧ Built address t' (done ++ [e]) ∧
      ∀ q, hdr + 108 ≤ q → mem'.drop q = mem.drop q := by
  have hlast : (done ++ [e])[done.length]? = some e := getElem?_concat_length
  have hvalid := hva.valid e (mem_of_getElem? hlast)
  have hva' := hva.of_append
  obtain ⟨mem₁, rest₁, name, hlen₁, hdrop₁, hframe₁, hname, heq⟩ :=
    processEntry_valid hvalid hdrop address t
  rw [(hvalid.terminated_iff).mp hterm] at hname
  obtain ⟨last, hnames, hlast', hshort⟩ := hvalid.names_eq
  obtain rfl := Option.some.inj (hname.symm.trans hlast')
  obtain ⟨bs, heff⟩ := hvalid.effective_eq hterm hname
  obtain ⟨u, parent, hlook, hu, -, hpath⟩ := h.parent <| (hva.parents done.length e hlast).imp_right
    fun ⟨j, d, hj, hd, hnames, hdir⟩ =>
      have hd := (getElem?_append_left hj).symm.trans hd
      ⟨j, d, hd, hnames, hdir, h.lookup_path hva' hd⟩
  have hchild : t.nodes.child? u name.chars = none := by
    by_contra hsome
    obtain ⟨c, hc⟩ := ne_none_iff_exists'.mp hsome
    obtain ⟨i, d, -, hi, hd⟩ := h.child_some hc
    have hlt := (List.getElem?_eq_some_iff.mp hi).1
    rw [hpath, ← hnames] at hd
    have := hva.index_unique (by rw [getElem?_append_left hlt, hi]) hlast hd
    omega
  have hroot : t.nodes.node rootNode ≠ none := by
    obtain ⟨node, hnode, -⟩ := h.root
    rw [hnode]
    exact some_ne_none _
  have hgood := hvalid.good_effective
  have hshort₁ := hvalid.joined_lt
  rw [heff] at hgood hdrop₁ hshort₁
  have hfuel : e.names.dropLast.length < mem₁.length + 1 := by
    have hle := length_le_joined hgood
    have hlen := congrArg List.length hdrop₁
    rw [length_append] at hle
    rw [length_drop, length_append, length_cons] at hlen
    omega
  obtain ⟨mem', ns', hwalk, hnode, hnext, -, hframe⟩ := walkLoop_eq e.names.dropLast (h.tree hva') hroot
    hgood hdrop₁ hfuel hlook hchild
  refine ⟨mem', _, ?_, h.attach hva hnode hnext hu hpath hname, fun q hq => ?_⟩
  · rw [heq, if_pos (by omega), hwalk, Option.bind_some]
    dsimp only
    rw [hnode, hu, map_some, hhdr]
  · rw [hframe q (by omega), hframe₁ q hq]

end

section

variable {address : ℕ} {t t' : Ramdisk} {done rest : List Entry} {e : Entry} {mem tail : List UInt8}
  {hdr fuel : ℕ}

/-- The end of the archive, and what is behind it. -/
def ending (tail : List UInt8) : List UInt8 := List.replicate 1024 0 ++ tail

theorem initrdLoop_entry (h : e.Valid) {more : List UInt8} (hdrop : mem.drop hdr = e.header ++ more) :
    initrdLoop address (fuel + 1) mem t hdr = (processEntry address mem t hdr).bind fun r =>
      (ustarReadField 12 0 (r.1.drop (hdr + sizeField))).bind fun size =>
        initrdLoop address fuel r.1 r.2 (hdr + advance size) := by
  have hfield := h.field hdrop (fun _ _ => rfl) (k := magicField) (by decide) (by decide)
  have hmagic : mem.drop (hdr + magicField) =
      ustarMagic ++ 0 :: ((e.header.drop magicField).drop 6 ++ more) := by
    rw [hfield]
    conv_lhs => rw [← take_append_drop 6 (e.header.drop magicField), h.magic]
    rw [append_assoc, append_assoc, singleton_append]
  have hget : mem[hdr + magicField]? = some 117 := get_of_drop hmagic
  have hcmp : memStrcmp ustarMagic (mem.drop (hdr + magicField)) = some 0 := by
    have hnul : ∀ c ∈ ustarMagic, c ≠ 0 := (CStr.ofList ustarMagic rfl).no_nul
    rw [hmagic, memStrcmp_append hnul]
    decide
  have hend : atEnd mem hdr = some false := by
    rw [atEnd, hget]
    rfl
  rw [initrdLoop]
  simp only [hend, hcmp, bind_eq_bind, Option.bind_some]
  rfl

theorem initrdLoop_end (hdrop : mem.drop hdr = ending tail) :
    initrdLoop address (fuel + 1) mem t hdr = some t := by
  have hzero : ∀ k < 1024, mem[hdr + k]? = some 0 := by
    intro k hk
    rw [← getElem?_drop, hdrop, ending, getElem?_append_left (by rwa [length_replicate]),
      getElem?_replicate, if_pos hk]
  have h₁ := hzero magicField (by decide)
  have h₂ := hzero (512 + magicField) (by decide)
  rw [← Nat.add_assoc] at h₂
  have hend : atEnd mem hdr = some true := by
    rw [atEnd, h₁, h₂]
    rfl
  rw [initrdLoop, hend]
  rfl

theorem initrdLoop_good (fuel : ℕ) (good : List Entry) (h : Built address t done)
    (hva : ValidArchive (done ++ good)) (hterm : ∀ e ∈ good, e.Terminated)
    (hhdr : hdr = (archive done).length) (hdrop : mem.drop hdr = archive good ++ tail) :
    ∃ mem' t', initrdLoop address (fuel + good.length) mem t hdr =
        initrdLoop address fuel mem' t' (archive (done ++ good)).length ∧
      Built address t' (done ++ good) ∧ mem'.drop (archive (done ++ good)).length = tail := by
  induction good generalizing done mem t hdr with
  | nil =>
    rw [List.append_nil]
    exact ⟨mem, t, by rw [hhdr]; rfl, h, by rw [← hhdr, hdrop]; rfl⟩
  | cons e good ih =>
    rw [append_cons] at hva ⊢
    have hva' := hva.of_append
    have hvalid := hva'.valid e (mem_append_right _ mem_cons_self)
    rw [archive_cons, append_assoc] at hdrop
    obtain ⟨mem₁, t₁, hentry, hbuilt, hframe⟩ :=
      h.processEntry hva' (hterm e mem_cons_self) hdrop hhdr
    have hsize := hvalid.readField (hvalid.field hdrop hframe (k := sizeField) (by decide) (by decide))
    have hnext : hdr + advance (UInt64.ofNat e.size) = (archive (done ++ [e])).length := by
      rw [advance_eq hvalid.size_lt, archive_append, archive_cons, length_append, length_append,
        length_append, hvalid.header_length, hvalid.content_length, hhdr]
      rfl
    have hdrop₁ : mem₁.drop (archive (done ++ [e])).length = archive good ++ tail := by
      have hpos : (archive (done ++ [e])).length = hdr + (e.header.length + e.content.length) := by
        rw [← hnext, advance_eq hvalid.size_lt, hvalid.header_length, hvalid.content_length]
      have hlen := hvalid.header_length
      rw [hpos, hframe _ (by omega), ← drop_drop, hdrop, ← drop_drop, drop_left, append_assoc, drop_left]
    obtain ⟨mem', t', hloop, hbuilt', htail⟩ := ih hbuilt hva
      (fun d hd => hterm d (mem_cons_of_mem _ hd)) rfl hdrop₁
    refine ⟨mem', t', ?_, hbuilt', htail⟩
    rw [length_cons, ← Nat.add_assoc, initrdLoop_entry hvalid hdrop, hentry, Option.bind_some]
    dsimp only
    rw [hsize, Option.bind_some, hnext, hloop]

end

/-! ## Nodes that are there to stay -/

/-- The nodes of `t` keep their names and data, and their children. -/
structure Keeps (t t' : Ramdisk) : Prop where
  next : t.nodes.next ≤ t'.nodes.next
  node : ∀ vn node, t.nodes.node vn = some node → ∃ node', t'.nodes.node vn = some node' ∧
    node'.name = node.name ∧ node.children ⊆ node'.children
  data : ∀ vn < t.nodes.next, t'.data vn = t.data vn

section

variable {address : ℕ} {t t' t'' : Ramdisk} {mem mem' : List UInt8} {hdr fuel : ℕ}

theorem Keeps.refl (t : Ramdisk) : Keeps t t :=
  ⟨Nat.le_refl _, fun _ node h => ⟨node, h, rfl, List.Subset.refl _⟩, fun _ _ => rfl⟩

theorem Keeps.trans (h : Keeps t t') (h' : Keeps t' t'') : Keeps t t'' where
  next := h.next.trans h'.next
  node vn node hnode := by
    obtain ⟨node₁, hnode₁, hname₁, hsub₁⟩ := h.node vn node hnode
    obtain ⟨node₂, hnode₂, hname₂, hsub₂⟩ := h'.node vn node₁ hnode₁
    exact ⟨node₂, hnode₂, hname₂.trans hname₁, fun _ hc => hsub₂ (hsub₁ hc)⟩
  data vn hvn := (h'.data vn (hvn.trans_le h.next)).trans (h.data vn hvn)

theorem Keeps.inTree (h : Keeps t t') {vn : ℕ} (hvn : InTree t.nodes vn) : InTree t'.nodes vn := by
  refine ReflTransGen.mono (fun a b hab => ?_) _ _ hvn
  obtain ⟨node, hnode, hb⟩ := hab
  obtain ⟨node', hnode', -, hsub⟩ := h.node a node hnode
  exact ⟨node', hnode', hsub hb⟩

theorem walkLoop_some {ns : Nodes} {vn p : ℕ} {r : List UInt8 × Nodes × ℕ}
    (h : walkLoop fuel mem ns vn p = some r) : r.2.1.node = ns.node ∧ r.2.1.next = ns.next ∧
      ReflTransGen (fun a b => ∃ node, ns.node a = some node ∧ b ∈ node.children) vn r.2.2 := by
  induction fuel generalizing mem ns vn p r with
  | zero => cases h
  | succ fuel ih =>
    rw [walkLoop] at h
    obtain ⟨c, -, h⟩ := bind_eq_some_iff.mp h
    split_ifs at h
    · cases h
      exact ⟨rfl, rfl, .refl⟩
    · obtain ⟨_, -, h⟩ := bind_eq_some_iff.mp h
      obtain ⟨⟨st, out, ns'⟩, hopen, h⟩ := bind_eq_some_iff.mp h
      dsimp only at h
      split_ifs at h with hst
      · obtain ⟨w, hw, h⟩ := bind_eq_some_iff.mp h
        obtain ⟨w', rfl, hchild, rfl⟩ := openNode_eok hopen hst
        obtain rfl := Option.some.inj hw
        obtain ⟨node, hnode, -, hfind⟩ := child?_eq_some.mp hchild
        obtain ⟨hnode', hnext', hreach⟩ := ih h
        exact ⟨hnode', hnext', .head ⟨node, hnode, mem_of_find?_eq_some hfind⟩ hreach⟩
      · have hout := openNode_some hopen
        cases h
        obtain ⟨-, hns⟩ := Prod.mk.inj hout
        dsimp only
        rw [hns]
        cases ns.child? vn (strAt (cutSlash mem p) p).chars <;> exact ⟨rfl, rfl, .refl⟩

theorem attach_keeps (hunused : Unused t) {ns : Nodes} (hnode : ns.node = t.nodes.node)
    (hnext : ns.next = t.nodes.next) {u : ℕ} {parent : Node} (hu : t.nodes.node u = some parent) (node : Node)
    (size : UInt64) (data : ℕ) : Keeps t (attach t ns u parent node size data) := by
  refine ⟨?_, fun vn n hn => ?_, fun vn hvn => ?_⟩
  · show t.nodes.next ≤ ns.next + 1
    omega
  · have hne : vn ≠ ns.next := by
      rintro rfl
      rw [hunused _ (Nat.le_of_eq hnext.symm)] at hn
      cases hn
    obtain ⟨cs, hcs, hsub⟩ := attach_old hnode hu hne hn node size data
    exact ⟨_, hcs, rfl, hsub⟩
  · exact update_of_ne (by omega) ..

theorem processEntry_keeps (hunused : Unused t)
    (h : processEntry address mem t hdr = some (mem', t')) : Keeps t t' ∧ Unused t' := by
  obtain ⟨mem₁, -, h⟩ := bind_eq_some_iff.mp h
  obtain ⟨filename, -, h⟩ := bind_eq_some_iff.mp h
  obtain ⟨_, -, h⟩ := bind_eq_some_iff.mp h
  obtain ⟨c, -, h⟩ := bind_eq_some_iff.mp h
  obtain ⟨type, -, h⟩ := bind_eq_some_iff.mp h
  obtain ⟨size, -, h⟩ := bind_eq_some_iff.mp h
  obtain ⟨⟨mem₂, ns, u⟩, hwalk, h⟩ := bind_eq_some_iff.mp h
  obtain ⟨parent, hu, h⟩ := bind_eq_some_iff.mp h
  obtain ⟨hnode, hnext, -⟩ := walkLoop_some hwalk
  cases h
  rw [hnode] at hu
  exact ⟨attach_keeps hunused hnode hnext hu _ _ _, attach_unused hunused hnode hnext hu _ _ _⟩

theorem processEntry_new (hunused : Unused t) {e : Entry} (hvalid : e.Valid) {more : List UInt8}
    (hdrop : mem.drop hdr = e.header ++ more) (h : processEntry address mem t hdr = some (mem', t')) :
    ∃ node, t'.nodes.node t.nodes.next = some node ∧ e.effective.getLast? = some node.name.chars ∧
      InTree t'.nodes t.nodes.next ∧ t'.data t.nodes.next = address + hdr + 512 ∧
        t.nodes.next < t'.nodes.next := by
  obtain ⟨hkeeps, -⟩ := processEntry_keeps hunused h
  obtain ⟨mem₀, _, name, -, -, -, hname, heq⟩ := processEntry_valid hvalid hdrop address t
  rw [heq] at h
  split_ifs at h
  obtain ⟨⟨mem₂, ns, u⟩, hwalk, h⟩ := bind_eq_some_iff.mp h
  obtain ⟨parent, hu, h⟩ := map_eq_some_iff.mp h
  obtain ⟨hnode, hnext, hreach⟩ := walkLoop_some hwalk
  obtain ⟨-, rfl⟩ := Prod.mk.inj h
  dsimp only at hu hnode hnext hreach hkeeps ⊢
  have hune : u ≠ ns.next := by
    rintro rfl
    rw [hnode, hunused _ (by rw [hnext])] at hu
    cases hu
  rw [← hnext]
  refine ⟨⟨name, e.type, []⟩, ?_, hname, (hkeeps.inTree hreach).tail
    ⟨{ parent with children := parent.children ++ [ns.next] }, ?_, ?_⟩, ?_, Nat.lt_succ_self _⟩
  · rw [attach_node, if_pos rfl]
  · rw [attach_node, if_neg hune, if_pos rfl]
  · exact mem_append_right _ mem_cons_self
  · exact update_self ..

theorem initrdLoop_keeps (hunused : Unused t)
    (h : initrdLoop address fuel mem t hdr = some t') : Keeps t t' := by
  induction fuel generalizing mem t hdr with
  | zero => cases h
  | succ fuel ih =>
    rw [initrdLoop] at h
    obtain ⟨stop, -, h⟩ := bind_eq_some_iff.mp h
    split_ifs at h
    · cases h
      exact Keeps.refl _
    · obtain ⟨cmp, -, h⟩ := bind_eq_some_iff.mp h
      obtain ⟨_, -, h⟩ := bind_eq_some_iff.mp h
      obtain ⟨⟨mem₁, t₁⟩, hentry, h⟩ := bind_eq_some_iff.mp h
      obtain ⟨size, -, h⟩ := bind_eq_some_iff.mp h
      obtain ⟨hkeeps, hunused₁⟩ := processEntry_keeps hunused hentry
      exact hkeeps.trans (ih hunused₁ h)

end

/-! ## The whole archive -/

section

variable {address : ℕ} {t t' : Ramdisk} {done rest : List Entry} {e : Entry} {mem tail : List UInt8}
  {fuel : ℕ}

theorem Built.not_reflects (h : Built address t done) (hva : ValidArchive (done ++ e :: rest))
    (hbad : ¬ e.Terminated) {more : List UInt8} (hdrop : mem.drop (archive done).length = e.header ++ more)
    (hloop : initrdLoop address fuel mem t (archive done).length = some t') :
    ¬ Reflects address t' (done ++ e :: rest) := by
  intro href
  have hvalid := hva.valid e (mem_append_right _ mem_cons_self)
  cases fuel with
  | zero => cases hloop
  | succ fuel =>
    rw [initrdLoop_entry hvalid hdrop] at hloop
    obtain ⟨⟨mem₁, t₁⟩, hentry, hloop⟩ := bind_eq_some_iff.mp hloop
    obtain ⟨size, -, hloop⟩ := bind_eq_some_iff.mp hloop
    obtain ⟨-, hunused₁⟩ := processEntry_keeps h.unused hentry
    obtain ⟨node, hnode, hname, htree, hdata, hlt⟩ := processEntry_new h.unused hvalid hdrop hentry
    have hkeeps := initrdLoop_keeps hunused₁ hloop
    obtain ⟨node', hnode', hname', -⟩ := hkeeps.node _ _ hnode
    have hdata' : t'.data t.nodes.next = entryData address (done ++ e :: rest) done.length := by
      rw [hkeeps.data _ hlt, hdata]
      unfold entryData
      rw [take_left]
    rcases href.only _ (hkeeps.inTree htree) with hzero | ⟨d, hd, hopen⟩
    · rw [h.next] at hzero
      cases hzero
    · obtain ⟨i, hi⟩ := mem_iff_getElem?.mp hd
      obtain ⟨vn, _, hopen', -, -, -, hdata_i⟩ := href.entries i d hi
      obtain rfl := Option.some.inj (hopen.symm.trans hopen')
      have hlen : done.length < (done ++ e :: rest).length := by simp
      have hidx := entryData_inj hva.valid (List.getElem?_eq_some_iff.mp hi).1 hlen
        (hdata_i.symm.trans hdata')
      rw [hidx, getElem?_append_right (Nat.le_refl _), Nat.sub_self] at hi
      obtain rfl : e = d := Option.some.inj hi
      -- the path of the entry leads to a node of its own name
      have hlook := lookup_of_openPath hopen
      obtain ⟨last, hnames, hlast, -⟩ := hvalid.names_eq
      change t'.nodes.lookup rootNode e.names = some t.nodes.next at hlook
      rw [hnames, lookup_append] at hlook
      obtain ⟨v, -, hlook⟩ := bind_eq_some_iff.mp hlook
      obtain ⟨c, hc, hlook⟩ := bind_eq_some_iff.mp hlook
      obtain rfl := Option.some.inj hlook
      obtain ⟨child, hchild, hcname⟩ := child?_name hc
      obtain rfl := Option.some.inj (hnode'.symm.trans hchild)
      rw [hname'] at hcname
      exact hbad (hvalid.terminated_iff.mpr (by rw [hname, hlast, ← hcname]))

end

theorem exists_first_not {es : List Entry} (h : ¬ ∀ e ∈ es, e.Terminated) :
    ∃ good e rest, es = good ++ e :: rest ∧ (∀ d ∈ good, d.Terminated) ∧ ¬ e.Terminated := by
  cases hfind : es.find? (fun e => ¬ e.Terminated) with
  | none =>
    refine absurd (fun e he => ?_) h
    simpa using find?_eq_none.mp hfind e he
  | some e =>
    obtain ⟨hbad, good, rest, rfl, hgood⟩ := find?_eq_some_iff_append.mp hfind
    exact ⟨good, e, rest, rfl, fun d hd => by simpa using hgood d hd, by simpa using hbad⟩

/-- The first module with the path of the initial ramdisk is an archive, with what the boot loader has put
behind it. -/
def HoldsArchive (modules : List BootModule) (address : ℕ) (es : List Entry) : Prop :=
  ∃ m tail, modules.find? (fun m => m.path = initrdPath) = some m ∧ m.address = address ∧
    m.mem = archive es ++ ending tail

section

variable {es : List Entry} {modules : List BootModule} {address : ℕ} {root : Trie}

theorem initrdInit_eq (root : Trie) (hm : HoldsArchive modules address es) :
    ∃ mem tail, mem = archive es ++ ending tail ∧ initrdInit modules root =
      (initrdLoop address (mem.length + 1) mem emptyRamdisk 0).map fun t =>
        (t, mountRoot root rootNode) := by
  obtain ⟨m, tail, hfind, rfl, hmem⟩ := hm
  have hfind' : modules.find? (fun m => strcmp m.path.chars initrdPath.chars = 0) = some m := by
    rw [← hfind]
    congr 1
    funext m
    refine decide_eq_decide.mpr ((strcmp_eq_zero m.path.no_nul initrdPath.no_nul).trans ?_)
    exact ⟨chars_inj, fun h => by rw [h]⟩
  refine ⟨m.mem, tail, hmem, ?_⟩
  rw [initrdInit, hfind', bind_eq_bind, Option.bind_some, map_eq_bind]
  rfl

theorem exists_fuel (hva : ValidArchive es) {mem tail : List UInt8}
    (hmem : mem = archive es ++ ending tail) : ∃ fuel, mem.length + 1 = fuel + 1 + es.length := by
  have hle := length_le_archive hva.valid
  have hlen := congrArg List.length hmem
  rw [length_append] at hlen
  exact ⟨mem.length - es.length, by omega⟩

theorem reflects_of_terminated (hva : ValidArchive es) (hm : HoldsArchive modules address es)
    (hterm : ∀ e ∈ es, e.Terminated) :
    ∃ t root', initrdInit modules root = some (t, root') ∧ Reflects address t es := by
  obtain ⟨mem, tail, hmem, hinit⟩ := initrdInit_eq root hm
  obtain ⟨fuel, hfuel⟩ := exists_fuel hva hmem
  obtain ⟨mem', t, hloop, hbuilt, hdrop⟩ := initrdLoop_good (fuel + 1) es
    (built_empty address) hva hterm (rfl : 0 = (archive []).length) hmem
  rw [nil_append] at hloop hbuilt hdrop
  rw [← hfuel, initrdLoop_end hdrop] at hloop
  exact ⟨t, mountRoot root rootNode, by rw [hinit, hloop]; rfl, hbuilt.reflects hva⟩

theorem terminated_of_reflects (hva : ValidArchive es) (hm : HoldsArchive modules address es) {t : Ramdisk}
    {root' : Trie} (hinit : initrdInit modules root = some (t, root')) (href : Reflects address t es) :
    ∀ e ∈ es, e.Terminated := by
  by_contra hbad
  obtain ⟨mem, tail, hmem, heq⟩ := initrdInit_eq root hm
  obtain ⟨fuel, hfuel⟩ := exists_fuel hva hmem
  rw [heq] at hinit
  obtain ⟨t₁, ht₁, hpair⟩ := map_eq_some_iff.mp hinit
  obtain ⟨rfl, -⟩ := Prod.mk.inj hpair
  -- up to the first entry whose name does not end in its field, all is well
  obtain ⟨good, e, rest, rfl, hgood, hterm⟩ := exists_first_not hbad
  rw [archive_append, append_assoc] at hmem
  obtain ⟨mem', t', hloop, hbuilt, hdrop⟩ := initrdLoop_good (fuel + 1 + (e :: rest).length) good
    (built_empty address) (show ValidArchive ([] ++ good) from hva.of_append) hgood
    (rfl : 0 = (archive []).length) hmem
  rw [nil_append] at hloop hbuilt hdrop
  rw [Nat.add_assoc, Nat.add_comm (e :: rest).length, ← length_append, ← hfuel] at hloop
  rw [archive_cons, append_assoc] at hdrop
  exact hbuilt.not_reflects hva hterm hdrop (hloop.symm.trans ht₁) href

end

/-- The tree reflects the archive exactly if every name ends in its field. -/
theorem initrd_reflects_iff {es : List Entry} (hva : ValidArchive es) {modules : List BootModule}
    {address : ℕ} (hm : HoldsArchive modules address es) (root : Trie) :
    (∃ t root', initrdInit modules root = some (t, root') ∧ Reflects address t es) ↔
      ∀ e ∈ es, e.Terminated :=
  ⟨fun ⟨_, _, hinit, href⟩ => terminated_of_reflects hva hm hinit href, reflects_of_terminated hva hm⟩

/-! ## Two archives -/

def field (n : ℕ) (text : List UInt8) : List UInt8 := text ++ List.replicate (n - text.length) 0

/-- An entry with the mode 755 and no more than one block of zeros as its content. -/
def sampleEntry (dotted : Bool) (comps : List CStr) (trailing : Bool) (type : VnodeType) (flag : UInt8)
    (digit : UInt8) : Entry where
  dotted := dotted
  comps := comps
  trailing := trailing
  mode := [48, 48, 48, 48, 55, 53, 53]
  type := type
  size := digit.toNat - 48
  header := field 100 (decorated dotted trailing (comps.map CStr.chars)) ++
    (field 8 [48, 48, 48, 48, 55, 53, 53] ++ (List.replicate 16 0 ++ (field 12 [digit] ++
      (List.replicate 20 0 ++ (flag :: (List.replicate 100 0 ++ (ustarMagic ++ List.replicate 250 0)))))))
  content := List.replicate (512 * ((digit.toNat - 48 + 511) / 512)) 0

def compA : CStr := .ofList (List.replicate 63 97) rfl
def compB : CStr := .ofList [98] rfl
def compC : CStr := .ofList (List.replicate 35 99) rfl

def dirA : Entry := sampleEntry false [compA] true .dir 53 48
def fileB : Entry := sampleEntry true [compA, compB] false .reg 48 49
def dirC : Entry := sampleEntry false [compA, compC] true .dir 53 48

theorem dirA_valid : dirA.Valid := by
  refine ⟨?_, ?_, ?_, ?_, ?_, fun _ => ⟨?_, [], ?_⟩, ⟨53, ?_⟩,
    ⟨[48], List.replicate 11 0, ?_⟩, ?_, ?_, ?_⟩ <;> decide +kernel

theorem fileB_valid : fileB.Valid := by
  refine ⟨?_, ?_, ?_, ?_, ?_, fun _ => ⟨?_, [], ?_⟩, ⟨48, ?_⟩,
    ⟨[49], List.replicate 11 0, ?_⟩, ?_, ?_, ?_⟩ <;> decide +kernel

theorem dirC_valid : dirC.Valid := by
  refine ⟨?_, ?_, ?_, ?_, ?_, fun _ => ⟨?_, [], ?_⟩, ⟨53, ?_⟩,
    ⟨[48], List.replicate 11 0, ?_⟩, ?_, ?_, ?_⟩ <;> decide +kernel

def sampleModules (es : List Entry) : List BootModule := [⟨initrdPath, 0, archive es ++ ending []⟩]

theorem holdsArchive_sample (es : List Entry) : HoldsArchive (sampleModules es) 0 es :=
  ⟨_, [], find?_cons_of_pos (decide_eq_true rfl), rfl, rfl⟩

theorem validArchive_pair {d e : Entry} (hd : d.Valid) (he : e.Valid) (hdir : d.type = .dir)
    (hroot : d.names.dropLast = []) (hparent : e.names.dropLast = d.names)
    (hne : joined d.names ≠ joined e.names) : ValidArchive [d, e] where
  valid f hf := by
    rcases mem_cons.mp hf with rfl | hf
    · exact hd
    · exact mem_singleton.mp hf ▸ he
  distinct := by simpa using hne
  parents i f hf := by
    match i, hf with
    | 0, hf =>
      cases hf
      exact Or.inl hroot
    | 1, hf =>
      cases hf
      exact Or.inr ⟨0, d, Nat.one_pos, rfl, hparent.symm, hdir⟩

theorem initrd_reflects_sample :
    ValidArchive [dirA, fileB] ∧ HoldsArchive (sampleModules [dirA, fileB]) 0 [dirA, fileB] ∧
      ∃ t root', initrdInit (sampleModules [dirA, fileB]) (rootMount 0) = some (t, root') ∧
        Reflects 0 t [dirA, fileB] := by
  have hva : ValidArchive [dirA, fileB] :=
    validArchive_pair dirA_valid fileB_valid rfl rfl rfl (by decide +kernel)
  refine ⟨hva, holdsArchive_sample _, (initrd_reflects_iff hva (holdsArchive_sample _) _).mpr ?_⟩
  decide +kernel

/-- A directory with a name of 99 characters and a slash behind it gets its mode as its name. -/
theorem full_name_runs_on :
    ValidArchive [dirA, dirC] ∧ HoldsArchive (sampleModules [dirA, dirC]) 0 [dirA, dirC] ∧
      (joined dirC.names).length = 99 ∧ dirC.effective = [compA.chars, compC.chars, dirC.mode] ∧
      ∀ root, ¬ ∃ t root', initrdInit (sampleModules [dirA, dirC]) root = some (t, root') ∧
        Reflects 0 t [dirA, dirC] := by
  have hva : ValidArchive [dirA, dirC] :=
    validArchive_pair dirA_valid dirC_valid rfl rfl rfl (by decide +kernel)
  refine ⟨hva, holdsArchive_sample _, by decide +kernel, by decide +kernel, ?_⟩
  rintro root ⟨t, root', hinit, href⟩
  exact absurd (terminated_of_reflects hva (holdsArchive_sample _) hinit href) (by decide +kernel)

end LykOS.Initrd
