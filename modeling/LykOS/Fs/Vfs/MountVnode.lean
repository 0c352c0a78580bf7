import LykOS.Fs.Vfs.Mount

/-!
# Mounting a vnode

`vfs_mount_vnode` of `fs/vfs.c`, on trie nodes as they are in memory. A component that a slash
follows is copied without a NUL, so that the bytes which the heap left behind it belong to the name,
and what the heap left in `root_vn` is taken for a mount point. A last component without a slash
behind it counts as `VFS_MAX_NAME_LEN` characters long: the path goes on behind its terminator. And
nothing keeps a node at 16 children. `vnode_mounted_iff` says when none of this matters.
-/

namespace LykOS.Vfs

open CStr List Option

/-- `VFS_MAX_NAME_LEN`. -/
def maxNameLen : ℕ := 64

/-- A `trie_node_t` in memory: the bytes of `comp`, and the children up to `children_cnt`. -/
inductive TrieNode
  | node (comp : List UInt8) (rootVn : Option ℕ) (children : List TrieNode)

/-- What the heap left in the memory of a new `trie_node_t`. -/
structure Block where
  comp : List UInt8
  rootVn : Option ℕ
  length_comp : comp.length = 32

namespace TrieNode

def comp : TrieNode → List UInt8
  | node c _ _ => c

def rootVn : TrieNode → Option ℕ
  | node _ vn _ => vn

def children : TrieNode → List TrieNode
  | node _ _ l => l

/-- `root_vn = vn`. -/
def mount (current : TrieNode) (vn : ℕ) : TrieNode := .node current.comp (some vn) current.children

def setChild (current : TrieNode) (i : ℕ) (child : TrieNode) : TrieNode :=
  .node current.comp current.rootVn (current.children.set i child)

/-- `children[children_cnt++] = child`. -/
def addChild (current child : TrieNode) : TrieNode :=
  .node current.comp current.rootVn (current.children ++ [child])

/-- `find_child`, from the child `i` on: the index of the child. -/
def findChild (comp : List UInt8) (length : ℕ) : ℕ → List TrieNode → Option (Option ℕ)
  | _, [] => some none
  | i, child :: l => do
    if (← memStrncmp child.comp comp length) = 0 then some (some i) else findChild comp length (i + 1) l

end TrieNode

/-- The loop of `vfs_mount_vnode`: what becomes of `current`. The `k`th new node is in the memory
`heap k`. There is no result if it leaves the buffer of the path, `comp` or `children[16]`. -/
def mountVnodeLoop (buf : List UInt8) (vn : ℕ) (heap : ℕ → Block) :
    ℕ → ℕ → TrieNode → ℕ → Option TrieNode
  | 0, _, _, _ => none
  | n + 1, path, current, k => do
    if (← charAt buf path) ≠ 0 then
      let path := skip buf path slash
      if (← charAt buf path) ≠ 0 then
        let compLen := match strchr buf path slash with
          | some i => i - path
          | none => maxNameLen
        match ← TrieNode.findChild (strAt buf path).chars compLen 0 current.children with
        | some i =>
          let child ← current.children[i]?
          (mountVnodeLoop buf vn heap n (path + compLen) child k).map (current.setChild i)
        | none =>
          let comp ← strncpy (heap k).comp (strAt buf path).chars compLen
          if current.children.length < 16 then
            let child := TrieNode.node comp (heap k).rootVn []
            (mountVnodeLoop buf vn heap n (path + compLen) child (k + 1)).map current.addChild
          else none
      else some (current.mount vn)
    else some (current.mount vn)

/-- `vfs_mount_vnode(vn, path)`: what becomes of `g_trie_root`. -/
def vfsMountVnode (heap : ℕ → Block) (vn : ℕ) (path : CStr) (root : TrieNode) : Option TrieNode :=
  mountVnodeLoop path.chars vn heap (path.chars.length + 1) 0 root 0

mutual

/-- The trie that the nodes in memory stand for, if each `comp` has a NUL. -/
def TrieNode.read : TrieNode → Option Trie
  | .node comp vn l => do
    let c ← memStr comp 0
    let ts ← readAll l
    some (.node c vn ts)

def readAll : List TrieNode → Option (List Trie)
  | [] => some []
  | node :: l => do
    let t ← node.read
    let ts ← readAll l
    some (t :: ts)

end

/-! ## What mounting is to do -/

namespace Trie

/-- No node has more than 16 children. -/
inductive Fits : Trie → Prop
  | node {c : CStr} {vn : Option ℕ} {l : List Trie} (length : l.length ≤ 16) (fits : ∀ t ∈ l, t.Fits) :
    (Trie.node c vn l).Fits

/-- The node for a sequence of components. -/
def at? : Trie → List (List UInt8) → Option Trie
  | t, [] => some t
  | t, c :: cs => (t.child? c).bind fun ch => ch.at? cs

/-- The vnode that is mounted at a sequence of components. -/
def mountAt (t : Trie) (cs : List (List UInt8)) : Option ℕ := (t.at? cs).bind rootVn

/-- `root'` is `root` with `vn` mounted at `cs`, and with the nodes on the way there. -/
structure Mounted (root : Trie) (vn : ℕ) (cs : List (List UInt8)) (root' : Trie) : Prop where
  here : root'.mountAt cs = some vn
  others : ∀ ds, ds ≠ cs → root'.mountAt ds = root.mountAt ds
  nodes : ∀ ds, (root'.at? ds).isSome ↔ (root.at? ds).isSome ∨ ds <+: cs

end Trie

/-- The call returns, every name ends in a NUL, no node has more than 16 children, and `vn` is
mounted at the components of the path. -/
def VnodeMounted (heap : ℕ → Block) (vn : ℕ) (path : CStr) (node : TrieNode) (root : Trie) : Prop :=
  ∃ node' root', vfsMountVnode heap vn path node = some node' ∧ node'.read = some root' ∧ root'.Valid ∧
    root'.Fits ∧ root.Mounted vn (components slash path.chars) root'

/-- In the memory of the new nodes, from the `k`th on, there is a NUL behind the component, and no
mount point unless the node is the last. -/
def Blank (heap : ℕ → Block) : ℕ → List (List UInt8) → Prop
  | _, [] => True
  | k, c :: cs => (heap k).comp[c.length]? = some 0 ∧ (cs ≠ [] → (heap k).rootVn = none) ∧
    Blank heap (k + 1) cs

/-- Along the components `find_child` takes the right children, and where there is none, there is
room for one and the memory is blank. -/
def Trie.Mountable (heap : ℕ → Block) : ℕ → Trie → List (List UInt8) → Prop
  | _, _, [] => True
  | k, t, c :: cs => t.pick c true = t.child? c ∧
    match t.child? c with
    | some ch => ch.Mountable heap k cs
    | none => t.children.length < 16 ∧ Blank heap k (c :: cs)

/-- A slash follows each component, and the walk is as it should be. -/
def VnodeMountable (heap : ℕ → Block) (path : CStr) (root : Trie) : Prop :=
  (components slash path.chars ≠ [] → trails path.chars = true) ∧
    root.Mountable heap 0 (components slash path.chars)

/-! ## Reading the nodes back -/

section

variable {l : List TrieNode} {ts : List Trie} {node : TrieNode} {t : Trie} {i : ℕ}

theorem readAll_cons : readAll (node :: l) = some ts ↔
    ∃ t ts', node.read = some t ∧ readAll l = some ts' ∧ ts = t :: ts' := by
  rw [readAll, bind_eq_bind, bind_eq_some_iff]
  constructor
  · rintro ⟨t, ht, h⟩
    obtain ⟨ts', hts, heq⟩ := bind_eq_some_iff.mp h
    exact ⟨t, ts', ht, hts, (Option.some.inj heq).symm⟩
  · rintro ⟨t, ts', ht, hts, rfl⟩
    exact ⟨t, ht, bind_eq_some_iff.mpr ⟨ts', hts, rfl⟩⟩

theorem readAll_length (h : readAll l = some ts) : ts.length = l.length := by
  induction l generalizing ts with
  | nil =>
    cases h
    rfl
  | cons node l ih =>
    obtain ⟨t, ts', -, hts, rfl⟩ := readAll_cons.mp h
    rw [length_cons, length_cons, ih hts]

theorem readAll_getElem? (h : readAll l = some ts) (i : ℕ) : ts[i]? = l[i]?.bind TrieNode.read := by
  induction l generalizing ts i with
  | nil =>
    cases h
    rfl
  | cons node l ih =>
    obtain ⟨t, ts', ht, hts, rfl⟩ := readAll_cons.mp h
    cases i with
    | zero => exact ht.symm
    | succ i =>
      rw [getElem?_cons_succ, getElem?_cons_succ]
      exact ih hts i

theorem readAll_set (h : readAll l = some ts) (hi : i < l.length) (child : TrieNode) :
    readAll (l.set i child) = child.read.map fun ch => ts.set i ch := by
  induction l generalizing ts i with
  | nil => exact absurd hi (Nat.not_lt_zero i)
  | cons node l ih =>
    obtain ⟨t, ts', ht, hts, rfl⟩ := readAll_cons.mp h
    cases i with
    | zero =>
      rw [set_cons_zero, readAll, hts]
      cases child.read <;> rfl
    | succ i =>
      rw [set_cons_succ, readAll, ht, ih hts (Nat.lt_of_succ_lt_succ hi)]
      cases child.read <;> rfl

theorem readAll_append (h : readAll l = some ts) (child : TrieNode) :
    readAll (l ++ [child]) = child.read.map fun ch => ts ++ [ch] := by
  induction l generalizing ts with
  | nil =>
    cases h
    rw [nil_append, readAll]
    cases child.read <;> rfl
  | cons node l ih =>
    obtain ⟨t, ts', ht, hts, rfl⟩ := readAll_cons.mp h
    rw [cons_append, readAll, ht, ih hts]
    cases child.read <;> rfl

theorem TrieNode.read_eq_some : node.read = some t ↔
    memStr node.comp 0 = some t.comp ∧ node.rootVn = t.rootVn ∧
      readAll node.children = some t.children := by
  obtain ⟨comp, vn, l⟩ := node
  obtain ⟨c, vn', ts⟩ := t
  rw [TrieNode.read, bind_eq_bind, bind_eq_some_iff]
  constructor
  · rintro ⟨c', hc, h⟩
    obtain ⟨ts', hts, heq⟩ := bind_eq_some_iff.mp h
    cases heq
    exact ⟨hc, rfl, hts⟩
  · rintro ⟨hc, rfl, hts⟩
    exact ⟨c, hc, bind_eq_some_iff.mpr ⟨ts, hts, rfl⟩⟩

end

namespace Trie

def mount (t : Trie) (vn : ℕ) : Trie := .node t.comp (some vn) t.children

def setChild (t : Trie) (i : ℕ) (ch : Trie) : Trie := .node t.comp t.rootVn (t.children.set i ch)

def addChild (t ch : Trie) : Trie := .node t.comp t.rootVn (t.children ++ [ch])

end Trie

namespace TrieNode

variable {node : TrieNode} {t : Trie} (h : node.read = some t)

include h

theorem read_mount (vn : ℕ) : (node.mount vn).read = some (t.mount vn) := by
  obtain ⟨hc, -, hts⟩ := read_eq_some.mp h
  exact read_eq_some.mpr ⟨hc, rfl, hts⟩

theorem read_setChild {i : ℕ} (hi : i < node.children.length) (child : TrieNode) :
    (node.setChild i child).read = child.read.map (t.setChild i) := by
  obtain ⟨hc, hvn, hts⟩ := read_eq_some.mp h
  unfold setChild
  rw [read, hc, readAll_set hts hi, hvn]
  cases child.read <;> rfl

theorem read_addChild (child : TrieNode) : (node.addChild child).read = child.read.map t.addChild := by
  obtain ⟨hc, hvn, hts⟩ := read_eq_some.mp h
  unfold addChild
  rw [read, hc, readAll_append hts, hvn]
  cases child.read <;> rfl

theorem bind_read_setChild {i : ℕ} (hi : i < node.children.length) (r : Option TrieNode) :
    (r.map (node.setChild i)).bind read = (r.bind read).map (t.setChild i) := by
  cases r with
  | none => rfl
  | some child => exact read_setChild h hi child

theorem bind_read_addChild (r : Option TrieNode) :
    (r.map node.addChild).bind read = (r.bind read).map t.addChild := by
  cases r with
  | none => rfl
  | some child => exact read_addChild h child

end TrieNode

/-! ## The walk through the names -/

/-- What the loop does to the trie that the nodes stand for, if a slash follows each component. -/
def Trie.mountWalk (heap : ℕ → Block) (vn : ℕ) : ℕ → Trie → List (List UInt8) → Option Trie
  | _, t, [] => some (t.mount vn)
  | k, t, c :: cs =>
    match t.children.findIdx? fun ch => c.isPrefixOf ch.comp.chars with
    | some i => t.children[i]?.bind fun ch => (ch.mountWalk heap vn k cs).map (t.setChild i)
    | none =>
      if t.children.length < 16 then
        (memStr (c ++ (heap k).comp.drop c.length) 0).bind fun name =>
          ((Trie.node name (heap k).rootVn []).mountWalk heap vn (k + 1) cs).map t.addChild
      else none

theorem TrieNode.findChild_eq {l : List TrieNode} {ts : List Trie} (h : readAll l = some ts)
    {c rest : List UInt8} (hc : ∀ a ∈ c ++ rest, a ≠ 0) (i : ℕ) :
    TrieNode.findChild (c ++ rest) c.length i l =
      some ((ts.findIdx? fun ch => c.isPrefixOf ch.comp.chars).map (· + i)) := by
  induction l generalizing ts i with
  | nil =>
    cases h
    rfl
  | cons node l ih =>
    obtain ⟨t, ts', ht, hts, rfl⟩ := readAll_cons.mp h
    obtain ⟨mem, hmem⟩ := memStr_eq_some.mp (TrieNode.read_eq_some.mp ht).1
    have hcmp : strncmp t.comp.chars (c ++ rest) c.length = 0 ↔ c.isPrefixOf t.comp.chars = true := by
      rw [strncmp_eq_zero t.comp.no_nul hc, take_left, isPrefixOf_iff_prefix, prefix_iff_eq_take]
      exact eq_comm
    rw [TrieNode.findChild, hmem, memStrncmp_append hc, findIdx?_cons]
    simp only [bind_eq_bind, Option.bind_some, hcmp]
    split
    · rw [map_some, Nat.zero_add]
    · rw [ih hts, Option.map_map]
      congr 2
      funext j
      dsimp only [Function.comp_apply]
      omega

section

variable {buf : List UInt8} {p : ℕ} (hbuf : ∀ a ∈ buf, a ≠ 0) (vn : ℕ) (heap : ℕ → Block) (node : TrieNode)
  (k : ℕ)

include hbuf

theorem mountVnodeLoop_nil (hp : p ≤ buf.length) (n : ℕ) (h : components slash (buf.drop p) = []) :
    mountVnodeLoop buf vn heap (n + 1) p node k = some (node.mount vn) := by
  rw [mountVnodeLoop]
  by_cases hend : buf.drop p = []
  · rw [(charAt_eq_zero hbuf hp).mpr hend]
    rfl
  · obtain ⟨a, ha, hne⟩ := exists_charAt hbuf hp hend
    have hskip := (charAt_eq_zero hbuf (skip_le hp slash).2).mpr (drop_skip_of_no_component h)
    simp only [ha, hskip, bind_eq_bind, Option.bind_some, ne_eq, hne, not_false_eq_true, if_true,
      not_true_eq_false, if_false]

theorem mountVnodeLoop_cons (hp : p ≤ buf.length) (n : ℕ) {c : List UInt8} {cs : List (List UInt8)}
    (h : components slash (buf.drop p) = c :: cs) :
    ∃ q tail, buf.drop q = c ++ tail ∧ q + c.length ≤ buf.length ∧
      components slash (buf.drop (q + c.length)) = cs ∧ (tail ≠ [] ↔ trails buf = true ∨ cs ≠ []) ∧
      ∀ len, len = (if tail = [] then maxNameLen else c.length) →
      mountVnodeLoop buf vn heap (n + 1) p node k =
        (TrieNode.findChild (c ++ tail) len 0 node.children).bind fun r => match r with
          | some i => node.children[i]?.bind fun child =>
            (mountVnodeLoop buf vn heap n (q + len) child k).map (node.setChild i)
          | none => (strncpy (heap k).comp (c ++ tail) len).bind fun comp =>
            if node.children.length < 16 then
              (mountVnodeLoop buf vn heap n (q + len) (.node comp (heap k).rootVn []) (k + 1)).map
                node.addChild
            else none := by
  obtain ⟨⟨a, ha, hne⟩, hnil, hcomp, tail, hdrop, htail, htaildrop, hcs, hiff⟩ :=
    exists_component hbuf hp h
  have hlen : skip buf p slash + c.length ≤ buf.length := by
    have hlen := congrArg List.length hdrop
    have hpos := length_pos_iff.mpr hnil
    rw [length_drop, length_append] at hlen
    omega
  obtain ⟨b, hb, hbne⟩ := exists_charAt hbuf (skip_le hp slash).2 (p := skip buf p slash)
    (by rw [hdrop]; exact append_ne_nil_of_left_ne_nil hnil tail)
  refine ⟨skip buf p slash, tail, hdrop, hlen, by rw [htaildrop, hcs], ?_, ?_⟩
  · rw [hiff]
    simp [trails]
  · rintro len rfl
    rw [mountVnodeLoop]
    simp only [ha, hb, bind_eq_bind, Option.bind_some, ne_eq, hne, hbne, not_false_eq_true, if_true,
      strAt_chars hbuf, hdrop]
    rw [strchr_eq hbuf hdrop hcomp htail]
    by_cases htl : tail = []
    · rw [if_pos htl, if_pos htl]
    · rw [if_neg htl, if_neg htl]
      dsimp only
      rw [Nat.add_sub_cancel_left]

omit hbuf in
theorem mountVnodeLoop_comp {n : ℕ} {node' : TrieNode}
    (h : mountVnodeLoop buf vn heap n p node k = some node') : node'.comp = node.comp := by
  cases n with
  | zero => cases h
  | succ n =>
    rw [mountVnodeLoop] at h
    simp only [bind_eq_bind, bind_eq_some_iff] at h
    obtain ⟨a, -, h⟩ := h
    split at h
    · obtain ⟨b, -, h⟩ := bind_eq_some_iff.mp h
      split at h
      · obtain ⟨r, -, h⟩ := bind_eq_some_iff.mp h
        split at h
        · obtain ⟨child, -, h⟩ := bind_eq_some_iff.mp h
          obtain ⟨child', -, rfl⟩ := map_eq_some_iff.mp h
          rfl
        · obtain ⟨comp, -, h⟩ := bind_eq_some_iff.mp h
          split at h
          · obtain ⟨child', -, rfl⟩ := map_eq_some_iff.mp h
            rfl
          · cases h
      · cases h
        rfl
    · cases h
      rfl

omit hbuf in
theorem mountVnodeLoop_unnamed (n : ℕ) (h : memStr node.comp 0 = none) :
    (mountVnodeLoop buf vn heap n p node k).bind TrieNode.read = none := by
  rw [bind_eq_none_iff]
  intro node' hloop
  rw [eq_none_iff_forall_ne_some]
  intro t hread
  have hname := (TrieNode.read_eq_some.mp hread).1
  rw [mountVnodeLoop_comp vn heap node k hloop, h] at hname
  cases hname

end

theorem strncpy_comp (block : Block) {c : List UInt8} (hc : c.length < 32) (tail : List UInt8) :
    strncpy block.comp (c ++ tail) c.length = some (c ++ block.comp.drop c.length) := by
  unfold strncpy
  rw [strncpyBytes_of_le (by rw [length_append]; omega), take_left]
  exact if_pos (by rw [block.length_comp]; omega)

theorem mountVnodeLoop_of_not_trails {buf : List UInt8} (hbuf : ∀ a ∈ buf, a ≠ 0) (vn : ℕ)
    (heap : ℕ → Block) (htrails : trails buf = false) :
    ∀ (cs : List (List UInt8)) (n p : ℕ) (node : TrieNode) (k : ℕ), p ≤ buf.length →
      components slash (buf.drop p) = cs → cs ≠ [] → (∀ c ∈ cs, c.length < 32) →
      mountVnodeLoop buf vn heap n p node k = none := by
  intro cs
  induction cs with
  | nil => exact fun _ _ _ _ _ _ hne => absurd rfl hne
  | cons c cs ih =>
    intro n p node k hp hcs _ hlen
    cases n with
    | zero => rfl
    | succ n =>
      obtain ⟨q, tail, hdrop, hq, hnext, hiff, hrun⟩ := mountVnodeLoop_cons hbuf vn heap node k hp n hcs
      -- the next round is behind the terminator, or has no result either
      have hrest : ∀ node' k', mountVnodeLoop buf vn heap n
          (q + if tail = [] then maxNameLen else c.length) node' k' = none := by
        intro node' k'
        by_cases htail : tail = []
        · have hend : buf.length < q + maxNameLen := by
            have hlength := congrArg List.length hdrop
            have hc := hlen c mem_cons_self
            rw [htail, List.append_nil, length_drop] at hlength
            unfold maxNameLen
            omega
          rw [if_pos htail]
          cases n with
          | zero => rfl
          | succ n =>
            have hchar : charAt buf (q + maxNameLen) = none := by
              unfold charAt
              rw [if_neg (by omega), getElem?_eq_none (by omega)]
            rw [mountVnodeLoop, hchar]
            rfl
        · rw [if_neg htail]
          refine ih n _ node' k' hq hnext ?_ fun d hd => hlen d (mem_cons_of_mem c hd)
          simpa [htrails] using hiff.mp htail
      rw [hrun _ rfl, bind_eq_none_iff]
      rintro (- | i) -
      · simp only [hrest, map_none, ite_self, bind_fun_none]
      · simp only [hrest, map_none, bind_fun_none]

theorem mountVnodeLoop_read {buf : List UInt8} (hbuf : ∀ a ∈ buf, a ≠ 0) (vn : ℕ) (heap : ℕ → Block) :
    ∀ (cs : List (List UInt8)) (n p : ℕ) (node : TrieNode) (k : ℕ) (t : Trie), p ≤ buf.length →
      components slash (buf.drop p) = cs → (cs ≠ [] → trails buf = true) → (∀ c ∈ cs, c.length < 32) →
      cs.length < n → node.read = some t →
      (mountVnodeLoop buf vn heap n p node k).bind TrieNode.read = t.mountWalk heap vn k cs := by
  intro cs
  induction cs with
  | nil =>
    intro n p node k t hp hcs _ _ hn hread
    obtain ⟨n, rfl⟩ : ∃ m, n = m + 1 := ⟨n - 1, by rw [length_nil] at hn; omega⟩
    rw [mountVnodeLoop_nil hbuf vn heap node k hp n hcs]
    exact TrieNode.read_mount hread vn
  | cons c cs ih =>
    intro n p node k t hp hcs htrails hlen hn hread
    rw [length_cons] at hn
    obtain ⟨n, rfl⟩ : ∃ m, n = m + 1 := ⟨n - 1, by omega⟩
    obtain ⟨q, tail, hdrop, hq, hnext, hiff, hrun⟩ := mountVnodeLoop_cons hbuf vn heap node k hp n hcs
    have htl : tail ≠ [] := hiff.mpr (Or.inl (htrails (cons_ne_nil c cs)))
    have hnul : ∀ a ∈ c ++ tail, a ≠ 0 := fun a ha => hbuf a (mem_of_mem_drop (hdrop ▸ ha))
    have hread' := (TrieNode.read_eq_some.mp hread).2.2
    have hih : ∀ child ch k', child.read = some ch →
        (mountVnodeLoop buf vn heap n (q + c.length) child k').bind TrieNode.read =
          ch.mountWalk heap vn k' cs := fun child ch k' hch =>
      ih n _ child k' ch hq hnext (fun _ => htrails (cons_ne_nil c cs))
        (fun d hd => hlen d (mem_cons_of_mem c hd)) (by omega) hch
    rw [hrun c.length (if_neg htl).symm, TrieNode.findChild_eq hread' hnul, Option.bind_some,
      Trie.mountWalk]
    cases hidx : t.children.findIdx? fun ch => c.isPrefixOf ch.comp.chars with
    | some i =>
      obtain ⟨hi, -, -⟩ := findIdx?_eq_some_iff_getElem.mp hidx
      have hget := readAll_getElem? hread' i
      rw [getElem?_eq_getElem hi] at hget
      obtain ⟨child, hchild, hch⟩ := bind_eq_some_iff.mp hget.symm
      have hi' := readAll_length hread' ▸ hi
      simp only [map_some, Nat.add_zero, hchild, getElem?_eq_getElem hi, Option.bind_some,
        ← hih child _ k hch]
      exact TrieNode.bind_read_setChild hread hi' _
    | none =>
      simp only [map_none, strncpy_comp (heap k) (hlen c mem_cons_self), Option.bind_some,
        readAll_length hread']
      split
      · refine (TrieNode.bind_read_addChild hread _).trans ?_
        cases hname : memStr (c ++ (heap k).comp.drop c.length) 0 with
        | none =>
          have hnone := @mountVnodeLoop_unnamed buf (q + c.length) vn heap
            (.node (c ++ (heap k).comp.drop c.length) (heap k).rootVn []) (k + 1) n hname
          rw [hnone]
          rfl
        | some name =>
          have hnew : (TrieNode.node (c ++ (heap k).comp.drop c.length) (heap k).rootVn []).read =
              some (.node name (heap k).rootVn []) := TrieNode.read_eq_some.mpr ⟨hname, rfl, rfl⟩
          rw [hih _ _ (k + 1) hnew, Option.bind_some]
      · rfl

/-! ## Mounts after an update -/

namespace Trie

section

variable {t ch ch' : Trie} {i : ℕ} {c : List UInt8} {cs : List (List UInt8)}

theorem at?_cons : t.at? (c :: cs) = (t.child? c).bind fun ch => ch.at? cs := rfl

theorem mountAt_cons : t.mountAt (c :: cs) = (t.child? c).bind fun ch => ch.mountAt cs := by
  unfold mountAt
  rw [at?_cons, bind_assoc]

theorem mem_mounts_of_mountAt {vn : ℕ} (h : t.mountAt cs = some vn) : vn ∈ t.mounts := by
  induction cs generalizing t with
  | nil => exact mem_mounts_root h
  | cons c cs ih =>
    rw [mountAt_cons] at h
    obtain ⟨ch, hch, h⟩ := bind_eq_some_iff.mp h
    exact mem_mounts_child (mem_of_find?_eq_some hch) (ih h)

theorem comp_of_child? (h : t.child? c = some ch) : ch.comp.chars = c := by
  simpa using find?_some h

theorem find?_set {l : List Trie} (hnodup : (l.map comp).Nodup) (hi : l[i]? = some ch)
    (hcomp : ch'.comp = ch.comp) (c : List UInt8) :
    (l.set i ch').find? (fun ch => ch.comp.chars = c) =
      if ch.comp.chars = c then some ch' else l.find? fun ch => ch.comp.chars = c := by
  induction l generalizing i with
  | nil => cases hi
  | cons a l ih =>
    rw [map_cons, nodup_cons] at hnodup
    cases i with
    | zero =>
      cases hi
      rw [set_cons_zero, find?_cons, find?_cons, hcomp]
      by_cases hc : ch.comp.chars = c
      · simp only [hc, decide_true, if_true]
      · simp only [hc, decide_false, if_false]
    | succ i =>
      rw [getElem?_cons_succ] at hi
      rw [set_cons_succ, find?_cons, find?_cons, ih hnodup.2 hi]
      by_cases ha : a.comp.chars = c
      · have hne : ch.comp.chars ≠ c := fun hc =>
          hnodup.1 (chars_inj (ha.trans hc.symm) ▸ List.mem_map_of_mem (mem_of_getElem? hi))
        simp only [ha, decide_true, if_neg hne]
      · simp only [ha, decide_false]

theorem Valid.nodup (h : t.Valid) : (t.children.map comp).Nodup := by
  cases h with
  | node names nodup valid => exact nodup

theorem child?_setChild (ht : t.Valid) (hi : t.children[i]? = some ch) (hcomp : ch'.comp = ch.comp)
    (c : List UInt8) :
    (t.setChild i ch').child? c = if ch.comp.chars = c then some ch' else t.child? c :=
  find?_set ht.nodup hi hcomp c

theorem child?_addChild (t ch : Trie) (c : List UInt8) :
    (t.addChild ch).child? c = (t.child? c).or (if ch.comp.chars = c then some ch else none) := by
  unfold child? addChild children
  dsimp only
  rw [find?_append, find?_singleton]
  simp only [decide_eq_true_eq]

theorem exists_of_findIdx? (h : t.children.findIdx? (fun ch => c.isPrefixOf ch.comp.chars) = some i) :
    ∃ ch, t.children[i]? = some ch ∧ t.pick c true = some ch := by
  obtain ⟨hi, -, -⟩ := findIdx?_eq_some_iff_getElem.mp h
  refine ⟨t.children[i], getElem?_eq_getElem hi, ?_⟩
  unfold pick
  rw [if_pos rfl, find?_eq_bind_findIdx?_getElem?, h, Option.bind_some, getElem?_eq_getElem hi]

theorem pick_of_findIdx?_none (h : t.children.findIdx? (fun ch => c.isPrefixOf ch.comp.chars) = none) :
    t.pick c true = none := by
  unfold pick
  rw [if_pos rfl, find?_eq_bind_findIdx?_getElem?, h, bind_none]

theorem child?_of_pick_some (h : t.pick c true = some ch) (hname : ch.comp.chars = c) :
    t.child? c = some ch := by
  by_contra hne
  obtain ⟨ch₂, hsome, -, hname₂⟩ := pick_ne_child? fun he => hne (he.symm.trans h)
  cases h.symm.trans hsome
  exact hname₂ hname

theorem child?_of_pick_none (h : t.pick c true = none) : t.child? c = none := by
  by_contra hne
  obtain ⟨_, hsome, -⟩ := pick_ne_child? fun he => hne (he.symm.trans h)
  cases h.symm.trans hsome

theorem Mounted.cons {t' : Trie} {vn : ℕ} (hroot : t'.rootVn = t.rootVn) (hchild : t'.child? c = some ch')
    (hothers : ∀ d, d ≠ c → t'.child? d = t.child? d) (hhere : ch'.mountAt cs = some vn)
    (hmounts : ∀ ds, ds ≠ cs → ch'.mountAt ds = t.mountAt (c :: ds))
    (hnodes : ∀ ds, (ch'.at? ds).isSome ↔ (t.at? (c :: ds)).isSome ∨ ds <+: cs) :
    t.Mounted vn (c :: cs) t' where
  here := by rw [mountAt_cons, hchild, Option.bind_some, hhere]
  others ds hds := by
    cases ds with
    | nil => exact hroot
    | cons d ds =>
      by_cases hd : d = c
      · subst hd
        rw [mountAt_cons, hchild, Option.bind_some, hmounts ds fun h => hds (h ▸ rfl)]
      · rw [mountAt_cons, mountAt_cons, hothers d hd]
  nodes ds := by
    cases ds with
    | nil => exact ⟨fun _ => Or.inl rfl, fun _ => rfl⟩
    | cons d ds =>
      rw [cons_prefix_cons]
      by_cases hd : d = c
      · subst hd
        rw [at?_cons, hchild, Option.bind_some, hnodes]
        simp only [true_and]
      · rw [at?_cons, hothers d hd, ← at?_cons]
        simp only [hd, false_and, or_false]

end

theorem mounted_mount (t : Trie) (vn : ℕ) : t.Mounted vn [] (t.mount vn) where
  here := rfl
  others ds hds := by
    cases ds with
    | nil => exact absurd rfl hds
    | cons d ds => rfl
  nodes ds := by
    cases ds with
    | nil => exact ⟨fun _ => Or.inl rfl, fun _ => rfl⟩
    | cons d ds =>
      refine ⟨Or.inl, fun h => h.resolve_right fun hpre => ?_⟩
      cases prefix_nil.mp hpre

section

variable {t ch ch' : Trie} {i : ℕ}

theorem Valid.mount (h : t.Valid) (vn : ℕ) : (t.mount vn).Valid := by
  cases h with
  | node names nodup valid => exact .node names nodup valid

theorem Fits.mount (h : t.Fits) (vn : ℕ) : (t.mount vn).Fits := by
  cases h with
  | node length fits => exact .node length fits

theorem Fits.child (h : t.Fits) (hch : ch ∈ t.children) : ch.Fits := by
  cases h with
  | node length fits => exact fits ch hch

theorem Valid.setChild (h : t.Valid) (hi : t.children[i]? = some ch) (hcomp : ch'.comp = ch.comp)
    (hch' : ch'.Valid) : (t.setChild i ch').Valid := by
  have hmem := mem_of_getElem? hi
  refine .node (fun x hx => ?_) ?_ fun x hx => ?_
  · rcases mem_or_eq_of_mem_set hx with hx | rfl
    · exact h.names hx
    · rw [hcomp]
      exact h.names hmem
  · have hnames : (t.children.set i ch').map comp = t.children.map comp := by
      refine ext_getElem? fun j => ?_
      rw [map_set, getElem?_set, hcomp, length_map]
      split
      · rename_i hj
        obtain ⟨hlt, -⟩ := List.getElem?_eq_some_iff.mp hi
        rw [if_pos hlt, ← hj, getElem?_map, hi]
        rfl
      · rfl
    rw [hnames]
    exact h.nodup
  · rcases mem_or_eq_of_mem_set hx with hx | rfl
    · exact h.child hx
    · exact hch'

theorem Fits.setChild (h : t.Fits) (hch' : ch'.Fits) : (t.setChild i ch').Fits := by
  cases h with
  | node length fits =>
    refine .node (by rw [length_set]; exact length) fun x hx => ?_
    rcases mem_or_eq_of_mem_set hx with hx | rfl
    · exact fits x hx
    · exact hch'

theorem Valid.addChild (h : t.Valid) (hnone : t.child? ch.comp.chars = none) (hch : ch.Valid)
    (hname : ch.comp.chars ≠ [] ∧ slash ∉ ch.comp.chars ∧ ch.comp.chars.length < 32) :
    (t.addChild ch).Valid := by
  refine .node (fun x hx => ?_) ?_ fun x hx => ?_
  · rcases mem_append.mp hx with hx | hx
    · exact h.names hx
    · rw [mem_singleton.mp hx]
      exact hname
  · rw [map_append, map_singleton, nodup_append]
    refine ⟨h.nodup, pairwise_singleton _ _, fun x hx y hy hxy => ?_⟩
    obtain ⟨old, hold, rfl⟩ := List.mem_map.mp hx
    have hne : old.comp.chars ≠ ch.comp.chars := by simpa using find?_eq_none.mp hnone old hold
    rw [mem_singleton.mp hy] at hxy
    exact hne (congrArg CStr.chars hxy)
  · rcases mem_append.mp hx with hx | hx
    · exact h.child hx
    · rw [mem_singleton.mp hx]
      exact hch

theorem Fits.addChild (h : t.Fits) (hlt : t.children.length < 16) (hch : ch.Fits) :
    (t.addChild ch).Fits := by
  refine .node (by rw [length_append, length_singleton]; omega) fun x hx => ?_
  rcases mem_append.mp hx with hx | hx
  · exact h.child hx
  · rw [mem_singleton.mp hx]
    exact hch

end

/-! ## New nodes -/

theorem valid_leaf (c : CStr) (vn : Option ℕ) : (Trie.node c vn []).Valid :=
  .node (fun _ h => by cases h) nodup_nil fun _ h => by cases h

theorem fits_leaf (c : CStr) (vn : Option ℕ) : (Trie.node c vn []).Fits :=
  .node (Nat.zero_le 16) fun _ h => by cases h

section

variable {t : Trie} {heap : ℕ → Block}

theorem mountable_leaf (h : t.children = []) (k : ℕ) (cs : List (List UInt8)) :
    t.Mountable heap k cs ↔ Blank heap k cs := by
  cases cs with
  | nil => exact Iff.rfl
  | cons c cs =>
    have hchild : t.child? c = none := by
      unfold child?
      rw [h]
      rfl
    have hpick : t.pick c true = none := by
      unfold pick
      rw [if_pos rfl, h]
      rfl
    unfold Mountable
    rw [hchild, hpick, h]
    exact ⟨fun hm => hm.2.2, fun hb => ⟨rfl, by decide, hb⟩⟩

theorem at?_leaf (h : t.children = []) (c : List UInt8) (cs : List (List UInt8)) :
    t.at? (c :: cs) = none := by
  rw [at?_cons]
  unfold child?
  rw [h]
  rfl

theorem mountAt_leaf (h : t.children = []) (c : List UInt8) (cs : List (List UInt8)) :
    t.mountAt (c :: cs) = none := by
  unfold mountAt
  rw [at?_leaf h]
  rfl

variable {c : List UInt8}

theorem Mounted.setChild {ch ch' : Trie} {i vn : ℕ} {cs : List (List UInt8)}
    (h : ch.Mounted vn cs ch') (ht : t.Valid) (hi : t.children[i]? = some ch)
    (hch : t.child? c = some ch) (hcomp : ch'.comp = ch.comp) :
    t.Mounted vn (c :: cs) (t.setChild i ch') := by
  have hname := comp_of_child? hch
  have hset := child?_setChild ht hi hcomp
  refine .cons rfl ((hset c).trans (if_pos hname)) (fun d hd => (hset d).trans (if_neg ?_))
    h.here (fun ds hds => ?_) fun ds => ?_
  · rw [hname]
    exact hd.symm
  · rw [h.others ds hds, mountAt_cons, hch, Option.bind_some]
  · rw [h.nodes, at?_cons, hch, Option.bind_some]

theorem Mounted.addChild {ch ch' : Trie} {vn : ℕ} {cs : List (List UInt8)} (h : ch.Mounted vn cs ch')
    (hch : t.child? c = none) (hleaf : ch.children = []) (hroot : cs ≠ [] → ch.rootVn = none)
    (hcomp : ch'.comp.chars = c) : t.Mounted vn (c :: cs) (t.addChild ch') := by
  have hadd := child?_addChild t ch'
  refine .cons rfl ?_ (fun d hd => ?_) h.here (fun ds hds => ?_) fun ds => ?_
  · rw [hadd, hch, if_pos hcomp]
    rfl
  · rw [hadd, hcomp, if_neg hd.symm, or_none]
  · rw [h.others ds hds, mountAt_cons, hch, bind_none]
    cases ds with
    | nil => exact hroot hds.symm
    | cons d ds => exact mountAt_leaf hleaf d ds
  · rw [h.nodes, at?_cons, hch, bind_none]
    cases ds with
    | nil => simp [at?]
    | cons d ds => rw [at?_leaf hleaf]

theorem memStr_blank {block : Block} {name : CStr}
    (h : memStr (c ++ block.comp.drop c.length) 0 = some name) (hname : name.chars = c) :
    block.comp[c.length]? = some 0 := by
  obtain ⟨rest, heq⟩ := memStr_eq_some.mp h
  rw [hname] at heq
  have hdrop := append_cancel_left heq
  rw [← head?_drop, hdrop]
  rfl

theorem exists_memStr_of_blank {block : Block} (hc : ∀ a ∈ c, a ≠ 0)
    (h : block.comp[c.length]? = some 0) :
    ∃ name, memStr (c ++ block.comp.drop c.length) 0 = some name ∧ name.chars = c := by
  rw [← head?_drop] at h
  obtain ⟨rest, hrest⟩ := head?_eq_some_iff.mp h
  rw [hrest]
  exact memStr_of_drop hc rfl

end

theorem mountWalk_root {heap : ℕ → Block} {vn k : ℕ} {t t' : Trie} {cs : List (List UInt8)}
    (h : t.mountWalk heap vn k cs = some t') : t'.comp = t.comp ∧ (cs ≠ [] → t'.rootVn = t.rootVn) := by
  cases cs with
  | nil =>
    cases h
    exact ⟨rfl, fun hne => absurd rfl hne⟩
  | cons c cs =>
    unfold mountWalk at h
    split at h
    · obtain ⟨ch, -, h⟩ := bind_eq_some_iff.mp h
      obtain ⟨ch', -, rfl⟩ := map_eq_some_iff.mp h
      exact ⟨rfl, fun _ => rfl⟩
    · split at h
      · obtain ⟨name, -, h⟩ := bind_eq_some_iff.mp h
        obtain ⟨ch', -, rfl⟩ := map_eq_some_iff.mp h
        exact ⟨rfl, fun _ => rfl⟩
      · cases h

theorem mountWalk_mounted (heap : ℕ → Block) (vn : ℕ) :
    ∀ (cs : List (List UInt8)) (k : ℕ) (t : Trie), t.Valid → t.Fits →
      (∀ c ∈ cs, c ≠ [] ∧ slash ∉ c ∧ c.length < 32 ∧ ∀ a ∈ c, a ≠ 0) → t.Mountable heap k cs →
      ∃ t', t.mountWalk heap vn k cs = some t' ∧ t'.Valid ∧ t'.Fits ∧ t.Mounted vn cs t' := by
  intro cs
  induction cs with
  | nil => exact fun k t ht hfits _ _ => ⟨_, rfl, ht.mount vn, hfits.mount vn, mounted_mount t vn⟩
  | cons c cs ih =>
    intro k t ht hfits hcs hm
    obtain ⟨hne, hslash, hlen, hnul⟩ := hcs c mem_cons_self
    have hcs' := fun d hd => hcs d (mem_cons_of_mem c hd)
    obtain ⟨hpick, hm⟩ := hm
    rw [mountWalk]
    cases hidx : t.children.findIdx? fun ch => c.isPrefixOf ch.comp.chars with
    | some i =>
      obtain ⟨ch, hi, hsome⟩ := exists_of_findIdx? hidx
      have hch : t.child? c = some ch := hpick.symm.trans hsome
      have hmem := mem_of_getElem? hi
      rw [hch] at hm
      obtain ⟨ch', hwalk, hvalid', hfits', hmounted⟩ := ih k ch (ht.child hmem) (hfits.child hmem) hcs' hm
      have hcomp := (mountWalk_root hwalk).1
      refine ⟨t.setChild i ch', ?_, ht.setChild hi hcomp hvalid', hfits.setChild hfits',
        hmounted.setChild ht hi hch hcomp⟩
      simp only [hi, hwalk, Option.bind_some, map_some]
    | none =>
      have hch : t.child? c = none := hpick.symm.trans (pick_of_findIdx?_none hidx)
      rw [hch] at hm
      obtain ⟨hlt, hzero, hroot, hblank⟩ := hm
      obtain ⟨name, hname, hchars⟩ := exists_memStr_of_blank hnul hzero
      obtain ⟨ch', hwalk, hvalid', hfits', hmounted⟩ := ih (k + 1) _ (valid_leaf name (heap k).rootVn)
        (fits_leaf _ _) hcs' ((mountable_leaf rfl _ _).mpr hblank)
      have hcomp : ch'.comp.chars = c := by rw [(mountWalk_root hwalk).1, ← hchars]; rfl
      have hvalid := ht.addChild (by rw [hcomp, hch]) hvalid' (by rw [hcomp]; exact ⟨hne, hslash, hlen⟩)
      refine ⟨t.addChild ch', ?_, hvalid, hfits.addChild hlt hfits', hmounted.addChild hch rfl hroot hcomp⟩
      simp only [if_pos hlt, hname, Option.bind_some]
      exact congrArg (Option.map t.addChild) hwalk

theorem mountable_of_mountWalk (heap : ℕ → Block) (vn : ℕ) :
    ∀ (cs : List (List UInt8)) (k : ℕ) (t t' : Trie), t.Valid → vn ∉ t.mounts →
      t.mountWalk heap vn k cs = some t' → t'.mountAt cs = some vn →
      (∀ ds, ds ≠ cs → t'.mountAt ds = t.mountAt ds) → t.Mountable heap k cs := by
  intro cs
  induction cs with
  | nil => exact fun _ _ _ _ _ _ _ _ => trivial
  | cons c cs ih =>
    intro k t t' ht hvn hwalk hhere hothers
    rw [mountWalk] at hwalk
    cases hidx : t.children.findIdx? fun ch => c.isPrefixOf ch.comp.chars with
    | some i =>
      obtain ⟨ch, hi, hsome⟩ := exists_of_findIdx? hidx
      simp only [hidx, hi, Option.bind_some] at hwalk
      obtain ⟨ch', hrun, rfl⟩ := map_eq_some_iff.mp hwalk
      have hset := child?_setChild ht hi (mountWalk_root hrun).1
      by_cases hname : ch.comp.chars = c
      · have hch := child?_of_pick_some hsome hname
        have hset : (t.setChild i ch').child? c = some ch' := (hset c).trans (if_pos hname)
        have hmem := mem_of_getElem? hi
        refine ⟨hsome.trans hch.symm, ?_⟩
        rw [hch]
        refine ih k ch ch' (ht.child hmem) (fun h => hvn (mem_mounts_child hmem h)) hrun ?_ fun ds hds => ?_
        · rw [mountAt_cons, hset, Option.bind_some] at hhere
          exact hhere
        · have heq := hothers (c :: ds) fun h => hds (List.cons.inj h).2
          rw [mountAt_cons, hset, mountAt_cons, hch, Option.bind_some, Option.bind_some] at heq
          exact heq
      · -- the child for the component is as it was, and `vn` is not mounted below it
        have hsame : (t.setChild i ch').child? c = t.child? c := (hset c).trans (if_neg hname)
        rw [mountAt_cons, hsame, ← mountAt_cons] at hhere
        exact absurd (mem_mounts_of_mountAt hhere) hvn
    | none =>
      have hpick := pick_of_findIdx?_none hidx
      have hch := child?_of_pick_none hpick
      simp only [hidx] at hwalk
      split at hwalk
      · rename_i hlt
        obtain ⟨name, hname, hadded⟩ := bind_eq_some_iff.mp hwalk
        obtain ⟨ch', hrun, rfl⟩ := map_eq_some_iff.mp hadded
        obtain ⟨hcomp, hroot⟩ := mountWalk_root hrun
        have hadd := child?_addChild t ch' c
        rw [hch, none_or] at hadd
        rw [mountAt_cons, hadd] at hhere
        have hchars : ch'.comp.chars = c := by
          by_contra hne
          rw [if_neg hne] at hhere
          cases hhere
        rw [if_pos hchars] at hadd hhere
        have hnew : ∀ ds, ds ≠ cs → ch'.mountAt ds = none := by
          intro ds hds
          have heq := hothers (c :: ds) fun h => hds (List.cons.inj h).2
          rw [mountAt_cons, hadd, mountAt_cons, hch, Option.bind_some, bind_none] at heq
          exact heq
        refine ⟨hpick.trans hch.symm, ?_⟩
        rw [hch]
        have hzero : (heap k).comp[c.length]? = some 0 := by
          refine memStr_blank hname ?_
          rw [← hchars, hcomp]
          rfl
        by_cases hcs : cs = []
        · subst hcs
          exact ⟨hlt, hzero, fun h => absurd rfl h, trivial⟩
        · have hnone : (heap k).rootVn = none := (hroot hcs).symm.trans (hnew [] (Ne.symm hcs))
          refine ⟨hlt, hzero, fun _ => hnone, (mountable_leaf rfl _ _).mp
            (ih (k + 1) _ ch' (valid_leaf _ _) ?_ hrun hhere fun ds hds => ?_)⟩
          · rw [hnone, Trie.mounts_eq]
            exact not_mem_nil
          · rw [hnew ds hds]
            cases ds with
            | nil => exact hnone.symm
            | cons d ds => exact (mountAt_leaf rfl d ds).symm
      · cases hwalk

end Trie

/-! ## Mounting -/

/-- The vnode is mounted if a slash follows each component, `find_child` takes the right children,
there is room for a new child, and the memory of the new nodes is blank. A vnode that was not
mounted before is mounted only then. -/
theorem vnode_mounted_iff {node : TrieNode} {root : Trie} (hread : node.read = some root)
    (hvalid : root.Valid) (hfits : root.Fits) (path : CStr)
    (hlen : ∀ c ∈ components slash path.chars, c.length < 32)
    (heap : ℕ → Block) (vn : ℕ) :
    (VnodeMountable heap path root → VnodeMounted heap vn path node root) ∧
      (vn ∉ root.mounts → VnodeMounted heap vn path node root → VnodeMountable heap path root) := by
  have hcs : ∀ c ∈ components slash path.chars, c ≠ [] ∧ slash ∉ c ∧ c.length < 32 ∧ ∀ a ∈ c, a ≠ 0 := by
    intro c hc
    obtain ⟨hne, hslash, hmem⟩ := mem_components slash hc
    exact ⟨hne, hslash, hlen c hc, fun a ha => path.no_nul a (hmem a ha)⟩
  have hcount : (components slash path.chars).length < path.chars.length + 1 :=
    Nat.lt_succ_of_le (components_length_le slash path.chars)
  have hwalk : (components slash path.chars ≠ [] → trails path.chars = true) →
      (vfsMountVnode heap vn path node).bind TrieNode.read =
        root.mountWalk heap vn 0 (components slash path.chars) := fun htrails =>
    mountVnodeLoop_read path.no_nul vn heap _ _ 0 node 0 root (Nat.zero_le _) rfl htrails hlen hcount hread
  constructor
  · rintro ⟨htrails, hm⟩
    obtain ⟨root', hrun, hvalid', hfits', hmounted⟩ :=
      Trie.mountWalk_mounted heap vn _ 0 root hvalid hfits hcs hm
    rw [← hwalk htrails] at hrun
    obtain ⟨node', hnode, hroot⟩ := bind_eq_some_iff.mp hrun
    exact ⟨node', root', hnode, hroot, hvalid', hfits', hmounted⟩
  · rintro hvn ⟨node', root', hnode, hroot, -, -, hmounted⟩
    have htrails : components slash path.chars ≠ [] → trails path.chars = true := by
      intro hne
      by_contra htrails
      have hnone := mountVnodeLoop_of_not_trails path.no_nul vn heap (by simpa using htrails) _
        (path.chars.length + 1) 0 node 0 (Nat.zero_le _) rfl hne hlen
      cases hnone.symm.trans hnode
    refine ⟨htrails, Trie.mountable_of_mountWalk heap vn _ 0 root root' hvalid hvn ?_ hmounted.here
      hmounted.others⟩
    rw [← hwalk htrails]
    exact bind_eq_some_iff.mpr ⟨node', hnode, hroot⟩

def filledBlock (a : UInt8) (vn : Option ℕ) : Block where
  comp := List.replicate 32 a
  rootVn := vn
  length_comp := length_replicate

def sampleRoot (names : List (List UInt8)) : TrieNode :=
  .node (47 :: List.replicate 31 0) none
    (names.map fun name => .node (name ++ List.replicate (32 - name.length) 0) none [])

def slashedPath : CStr := .ofList [47, 97, 47, 98, 47] rfl

theorem vnode_mounted_slashed :
    VnodeMounted (fun _ => filledBlock 0 none) 1 slashedPath (sampleRoot [])
      (.node (.ofList [47] rfl) none []) := by
  have hcs : components slash slashedPath.chars = [[97], [98]] := by decide +kernel
  refine (vnode_mounted_iff rfl (Trie.valid_leaf _ _) (Trie.fits_leaf _ _) slashedPath ?_ _ 1).1
    ⟨fun _ => by decide, ?_⟩
  · rw [hcs]
    decide
  · rw [hcs]
    exact ⟨rfl, by decide, rfl, fun _ => rfl, rfl, fun h => absurd rfl h, trivial⟩

/-- `/dev` is read behind its terminator. In memory that is not blank, `a` of `/a/b/` gets a name
that is not `a`. `/d/` is mounted at `dev`. And there is no room for a child behind 16 others. -/
theorem vnode_mount_fails :
    vfsMountVnode (fun _ => filledBlock 0 none) 1 (.ofList [47, 100, 101, 118] rfl) (sampleRoot []) = none ∧
    ((vfsMountVnode (fun _ => filledBlock 97 (some 7)) 1 slashedPath (sampleRoot [])).map fun node =>
      (node.read.isSome, node.children.map fun child => (child.comp, child.rootVn))) =
      some (false, [(List.replicate 32 97, some 7)]) ∧
    ((vfsMountVnode (fun _ => filledBlock 0 none) 1 (.ofList [47, 100, 47] rfl)
      (sampleRoot [[100, 101, 118]])).bind TrieNode.read).map (fun root =>
        (root.mountAt [[100]], root.mountAt [[100, 101, 118]])) = some (none, some 1) ∧
    vfsMountVnode (fun _ => filledBlock 0 none) 1 slashedPath
      (sampleRoot ((List.range 16).map fun i => [98 + UInt8.ofNat i])) = none := by
  refine ⟨?_, ?_, ?_, ?_⟩
  · exact isNone_iff_eq_none.mp (by decide +kernel)
  · decide +kernel
  · decide +kernel
  · exact isNone_iff_eq_none.mp (by decide +kernel)

end LykOS.Vfs
