import LykOS.Fs.Vfs.Tree
import LykOS.Mm.Vmm.Segments

/-!
# References on vnodes

`VN_HOLD` and `VN_RELE`, and who uses them. The count of a vnode should be the one it started with plus the
references that are out: one for each vnode that `vfs_open` returned, and one for each segment that maps it.

`vfs_open` takes a reference on every node that it walks through and returns only the last; on the root it
takes none. `vmm_mmap` takes none either, but `vmm_destroy_addr_space` gives one back. So the counts are
right exactly in the runs that open single names and map no file (`refs_balanced_iff`).
-/

namespace LykOS.Vfs

open CStr Run Vmm List

/-- The file system of the nodes. -/
inductive FileSystem
  | initrd
  | tmpfs
  deriving DecidableEq, Repr

def tmpfsClose (ns : Nodes) (vn : ℕ) : Option Nodes := do
  guard (ns.refCount vn = 0)
  return { ns with node := Function.update ns.node vn none }

/-- `vfs_close` behind the loop over the page cache; initrd has no operation `close`. -/
def vfsClose (fs : FileSystem) (ns : Nodes) (vn : ℕ) : Option Nodes :=
  match fs with
  | .initrd => some ns
  | .tmpfs => tmpfsClose ns vn

/-- `VN_RELE`: whether `vfs_close` was called, and the nodes. -/
def vnRele (fs : FileSystem) (ns : Nodes) (vn : ℕ) : Option (Bool × Nodes) := do
  let _ ← ns.node vn
  let ns := { ns with refCount := Function.update ns.refCount vn (ns.refCount vn - 1) }
  if ns.refCount vn = 0 then return (true, ← vfsClose fs ns vn) else return (false, ns)

/-- One round of `vmm_destroy_addr_space`, with the vnodes that were closed. -/
def destroySeg (fs : FileSystem) (s : Nodes × List ℕ) (seg : Seg) : Option (Nodes × List ℕ) :=
  match seg.vnode with
  | none => some s
  | some vn => do
    let (closed, ns) ← vnRele fs s.1 vn
    return (ns, if closed then vn :: s.2 else s.2)

def vmmDestroyAddrSpace (fs : FileSystem) (as : AddrSpace) (s : Nodes × List ℕ) :
    Option (Nodes × List ℕ) :=
  as.segments.foldlM (destroySeg fs) s

/-- The nodes, the address spaces, the vnodes that `vfs_open` returned and that were not released,
and those that `vfs_close` was called for. -/
structure RefWorld where
  nodes : Nodes
  spaces : List AddrSpace
  refs : List ℕ
  closed : List ℕ

/-- The calls. `VN_RELE` gives back what `vfs_open` returned. A path fits into memory. -/
inductive RefOp
  | vfsOpen (path : CStr) (h : path.chars.length < 2 ^ 64)
  | mmap (i : ℕ) (a : MmapArgs)
  | destroy (i : ℕ)
  | rele (vn : ℕ)

/-- One call. Filling the pages of a mapping does not touch a count, and is left out. -/
def refStep (fs : FileSystem) (root : ℕ) (w : RefWorld) : RefOp → Option RefWorld
  | .vfsOpen path _ => do
    let r ← vfsOpen (rootMount root) w.nodes path
    return { w with nodes := r.nodes, refs := r.out.toList ++ w.refs }
  | .mmap i a => do
    let as ← w.spaces[i]?
    let (_, as) ← mmapPlace as a
    return { w with spaces := w.spaces.set i as }
  | .destroy i => do
    let as ← w.spaces[i]?
    let (nodes, closed) ← vmmDestroyAddrSpace fs as (w.nodes, w.closed)
    return { w with nodes := nodes, closed := closed, spaces := w.spaces.eraseIdx i }
  | .rele vn => do
    guard (vn ∈ w.refs)
    let (closed, nodes) ← vnRele fs w.nodes vn
    return { w with
      nodes := nodes
      refs := w.refs.erase vn
      closed := if closed then vn :: w.closed else w.closed }

/-! ## Balance -/

def vnodesOf (as : AddrSpace) : List ℕ := as.segments.filterMap Seg.vnode

/-- The number of references on a vnode that are out. -/
def RefWorld.live (w : RefWorld) (vn : ℕ) : ℕ :=
  w.refs.count vn + (w.spaces.flatMap vnodesOf).count vn

/-- Every count is the initial one plus the references that are out. -/
def Balanced (init : ℕ → ℕ) (w : RefWorld) : Prop :=
  ∀ vn, (w.nodes.refCount vn).toNat = init vn + w.live vn

/-- The counts are right after a step, and `vfs_close` was called for the vnodes whose last reference it
gave back. -/
def RefsRight (init : ℕ → ℕ) (w w' : RefWorld) : Prop :=
  Balanced init w' ∧ ∀ vn, w'.closed.count vn =
    w.closed.count vn + if 0 < w.live vn ∧ init vn + w'.live vn = 0 then 1 else 0

/-- A path is a single name, without a slash at the end, and the count has room. A mapping is
anonymous, or fails. -/
def HoldsOnce (root : ℕ) (w : RefWorld) : RefOp → Prop
  | .vfsOpen path _ => (components slash path.chars).length = 1 ∧ trails path.chars = false ∧
      ∀ v, w.nodes.lookup root (components slash path.chars) = some v →
        (w.nodes.refCount v).toNat + 1 < 2 ^ 64
  | .mmap i a => a.vnode = none ∨ ∀ as, w.spaces[i]? = some as →
      mmapRefused as a = true ∧ hasFlag a.flags vmmMapFixed = true
  | .destroy _ => True
  | .rele _ => True

/-! ## Counting -/

section

variable {α β : Type*} [DecidableEq β] {l : List α} {i : ℕ} {a : α}

theorem count_flatMap_set (f : α → List β) (b : α) (x : β) (h : l[i]? = some a) :
    ((l.set i b).flatMap f).count x + (f a).count x = (l.flatMap f).count x + (f b).count x := by
  induction l generalizing i with
  | nil => cases h
  | cons c l ih =>
    cases i with
    | zero =>
      cases h
      simp only [set_cons_zero, flatMap_cons, count_append]
      omega
    | succ i =>
      have hrest := ih (i := i) h
      simp only [set_cons_succ, flatMap_cons, count_append]
      omega

theorem count_flatMap_eraseIdx (f : α → List β) (x : β) (h : l[i]? = some a) :
    ((l.eraseIdx i).flatMap f).count x + (f a).count x = (l.flatMap f).count x := by
  induction l generalizing i with
  | nil => cases h
  | cons c l ih =>
    cases i with
    | zero =>
      cases h
      simp only [eraseIdx_cons_zero, flatMap_cons, count_append]
      omega
    | succ i =>
      have hrest := ih (i := i) h
      simp only [eraseIdx_cons_succ, flatMap_cons, count_append]
      omega

end

theorem count_vnodesOf_insert (as : AddrSpace) (seg : Seg) (vn : ℕ) :
    (vnodesOf (vmmInsertSeg as seg)).count vn =
      (vnodesOf as).count vn + if seg.vnode = some vn then 1 else 0 := by
  have hperm : (vnodesOf (vmmInsertSeg as seg)).Perm ((seg :: as.segments).filterMap Seg.vnode) :=
    (Interval.insertByBase_perm Seg.base seg as.segments).filterMap Seg.vnode
  rw [hperm.count_eq, filterMap_cons]
  unfold vnodesOf
  cases seg.vnode with
  | none => rfl
  | some v => simp [count_cons]

/-! ## Holding and releasing -/

theorem refCount_hold (ns : Nodes) (v vn : ℕ) :
    ((ns.hold v).refCount vn).toNat = ((ns.refCount vn).toNat + if v = vn then 1 else 0) % 2 ^ 64 := by
  unfold Nodes.hold
  by_cases h : v = vn
  · subst h
    rw [if_pos rfl]
    simp
  · rw [if_neg h, Nat.add_zero, Nat.mod_eq_of_lt (UInt64.toNat_lt _)]
    simp [Function.update_of_ne (Ne.symm h)]

theorem refCount_holdAll (l : List ℕ) (ns : Nodes) (vn : ℕ) :
    ((l.foldl Nodes.hold ns).refCount vn).toNat = ((ns.refCount vn).toNat + l.count vn) % 2 ^ 64 := by
  induction l generalizing ns with
  | nil =>
    rw [count_nil, Nat.add_zero, Nat.mod_eq_of_lt (UInt64.toNat_lt _)]
    rfl
  | cons v l ih =>
    rw [foldl_cons, ih, refCount_hold, Nat.mod_add_mod, count_cons]
    congr 1
    simp only [beq_iff_eq]
    omega

variable {fs : FileSystem}

theorem vfsClose_refCount {ns ns' : Nodes} {vn : ℕ} (h : vfsClose fs ns vn = some ns') :
    ns'.refCount = ns.refCount := by
  cases fs with
  | initrd => cases h; rfl
  | tmpfs =>
    obtain ⟨_, -, h⟩ := Option.bind_eq_some_iff.mp h
    cases h
    rfl

theorem vnRele_spec {ns ns' : Nodes} {v : ℕ} {b : Bool} (h : vnRele fs ns v = some (b, ns'))
    (hpos : 0 < (ns.refCount v).toNat) :
    (∀ vn, (ns'.refCount vn).toNat + (if v = vn then 1 else 0) = (ns.refCount vn).toNat) ∧
      ∀ (l : List ℕ) vn, (if b then v :: l else l).count vn =
        l.count vn + if v = vn ∧ (ns'.refCount vn).toNat = 0 then 1 else 0 := by
  obtain ⟨node, -, h⟩ := Option.bind_eq_some_iff.mp h
  have hcount : ns'.refCount = Function.update ns.refCount v (ns.refCount v - 1) ∧
      (b = true ↔ ns'.refCount v = 0) := by
    dsimp only at h
    split at h
    · next hz =>
      obtain ⟨closed, hclose, h⟩ := Option.bind_eq_some_iff.mp h
      cases h
      have hcount := vfsClose_refCount hclose
      rw [hcount]
      exact ⟨rfl, fun _ => hz, fun _ => rfl⟩
    · next hz =>
      cases h
      exact ⟨rfl, (fun hb => by cases hb), fun h => absurd h hz⟩
  have hb : b = true ↔ (ns'.refCount v).toNat = 0 := by
    rw [hcount.2, ← UInt64.toNat_inj]
    rfl
  refine ⟨fun vn => ?_, fun l vn => ?_⟩
  · rw [hcount.1]
    by_cases heq : v = vn
    · subst heq
      have hle : (1 : UInt64) ≤ ns.refCount v := by
        rw [UInt64.le_iff_toNat_le]
        exact hpos
      rw [Function.update_self, if_pos rfl, UInt64.toNat_sub_of_le _ _ hle]
      exact Nat.sub_add_cancel hpos
    · rw [Function.update_of_ne (Ne.symm heq), if_neg heq, Nat.add_zero]
  · by_cases heq : v = vn
    · subst heq
      simp only [true_and, ← hb]
      cases b with
      | false => rfl
      | true => exact count_cons_self
    · simp only [heq, false_and, if_false, Nat.add_zero]
      cases b with
      | false => rfl
      | true => exact count_cons_of_ne heq

theorem destroySegs_spec {segs : List Seg} {s s' : Nodes × List ℕ}
    (h : segs.foldlM (destroySeg fs) s = some s')
    (hle : ∀ vn, (segs.filterMap Seg.vnode).count vn ≤ (s.1.refCount vn).toNat) (vn : ℕ) :
    (s'.1.refCount vn).toNat + (segs.filterMap Seg.vnode).count vn = (s.1.refCount vn).toNat ∧
      s'.2.count vn = s.2.count vn +
        if 0 < (segs.filterMap Seg.vnode).count vn ∧ (s'.1.refCount vn).toNat = 0 then 1 else 0 := by
  induction segs generalizing s with
  | nil =>
    cases h
    simp
  | cons seg segs ih =>
    rw [foldlM_cons] at h
    obtain ⟨s₁, hseg, h⟩ := Option.bind_eq_some_iff.mp h
    unfold destroySeg at hseg
    rw [filterMap_cons] at hle ⊢
    cases hvn : seg.vnode with
    | none =>
      rw [hvn] at hseg hle
      cases hseg
      exact ih h hle
    | some v =>
      rw [hvn] at hseg hle
      obtain ⟨⟨b, ns⟩, hrele, hseg⟩ := Option.bind_eq_some_iff.mp hseg
      cases hseg
      have hpos := Nat.lt_of_lt_of_le (count_pos_iff.mpr mem_cons_self) (hle v)
      obtain ⟨hcount, hclosed⟩ := vnRele_spec hrele hpos
      have hcons : ∀ x, (v :: segs.filterMap Seg.vnode).count x =
          (segs.filterMap Seg.vnode).count x + if v = x then 1 else 0 := by
        intro x
        rw [count_cons]
        simp only [beq_iff_eq]
      have hrest := ih h fun x => by
        have hx := hle x
        have hcx := hcount x
        dsimp only at hx ⊢
        rw [hcons] at hx
        omega
      have hcx := hcount vn
      dsimp only at hrest ⊢
      rw [hclosed] at hrest
      rw [hcons]
      split_ifs at hrest hcx ⊢ <;> omega

/-! ## The calls -/

section

variable {fs : FileSystem} {root : ℕ} {init : ℕ → ℕ} {w w' : RefWorld}

theorem refsRight_of_le (hclosed : w'.closed = w.closed) (hle : ∀ vn, w.live vn ≤ w'.live vn) :
    RefsRight init w w' ↔ Balanced init w' := by
  refine and_iff_left fun vn => ?_
  have hvn := hle vn
  rw [hclosed, if_neg (by omega), Nat.add_zero]

theorem opened_length (path : List UInt8) :
    (opened path).length = 1 ↔ (components slash path).length = 1 ∧ trails path = false := by
  unfold opened
  rcases components slash path with - | ⟨c, cs⟩
  · simp
  · cases trails path <;> simp

theorem walk_of_lookup {ns : Nodes} {vn v : ℕ} {cs : List (List UInt8)} (h : ns.lookup vn cs = some v) :
    (ns.walk vn cs).length = cs.length ∧ (cs ≠ [] → v ∈ ns.walk vn cs) := by
  induction cs generalizing vn with
  | nil => exact ⟨rfl, fun h => absurd rfl h⟩
  | cons c cs ih =>
    rw [Nodes.lookup] at h
    obtain ⟨child, hch, h⟩ := Option.bind_eq_some_iff.mp h
    obtain ⟨hlen, hmem⟩ := ih h
    rw [Nodes.walk, hch]
    refine ⟨congrArg (· + 1) hlen, fun _ => ?_⟩
    cases cs with
    | nil => cases h; exact mem_cons_self
    | cons c' cs => exact mem_cons_of_mem _ (hmem (cons_ne_nil _ _))

theorem holdAll_right (l : List ℕ) (hl : l.length < 2 ^ 64) (count : ℕ → UInt64) (v : ℕ) :
    (∀ vn, ((count vn).toNat + l.count vn) % 2 ^ 64 = (count vn).toNat + if v = vn then 1 else 0) ↔
      l = [v] ∧ (count v).toNat + 1 < 2 ^ 64 := by
  constructor
  · intro h
    have hroom : (count v).toNat + 1 < 2 ^ 64 := by
      have hv := h v
      rw [if_pos rfl] at hv
      rw [← hv]
      exact Nat.mod_lt _ (by decide)
    have hcount : ∀ vn, l.count vn = [v].count vn := by
      intro vn
      have hvn := h vn
      have hle := count_le_length (a := vn) (l := l)
      have hlt := UInt64.toNat_lt (count vn)
      rw [count_singleton]
      simp only [beq_iff_eq]
      split_ifs at hvn ⊢ <;> omega
    exact ⟨perm_singleton.mp (perm_iff_count.mpr hcount), hroom⟩
  · rintro ⟨rfl, hroom⟩ vn
    have hlt := UInt64.toNat_lt (count vn)
    rw [count_singleton]
    simp only [beq_iff_eq]
    by_cases heq : v = vn
    · subst heq
      rw [if_pos rfl]
      exact Nat.mod_eq_of_lt hroom
    · rw [if_neg heq, Nat.add_zero]
      exact Nat.mod_eq_of_lt hlt

theorem refStep_open {path : CStr} {hlen : path.chars.length < 2 ^ 64}
    (h : refStep fs root w (.vfsOpen path hlen) = some w') :
    ∃ v, w.nodes.lookup root (opened path.chars) = some v ∧
      w'.nodes = (w.nodes.walk root (opened path.chars)).foldl Nodes.hold w.nodes ∧
      w'.closed = w.closed ∧ ∀ vn, w'.live vn = w.live vn + if v = vn then 1 else 0 := by
  obtain ⟨r, hr, h⟩ := Option.bind_eq_some_iff.mp h
  obtain ⟨v, hv, rfl⟩ := vfsOpen_some hr
  cases h
  refine ⟨v, hv, rfl, rfl, fun vn => ?_⟩
  simp only [RefWorld.live, Option.toList_some, singleton_append, count_cons, beq_iff_eq]
  omega

theorem open_right_iff (hw : Balanced init w) {path : CStr} {hlen : path.chars.length < 2 ^ 64}
    (h : refStep fs root w (.vfsOpen path hlen) = some w') :
    RefsRight init w w' ↔ HoldsOnce root w (.vfsOpen path hlen) := by
  obtain ⟨v, hv, hnodes, hclosed, hlive⟩ := refStep_open h
  obtain ⟨hwalk, hlast⟩ := walk_of_lookup hv
  have hle := opened_length_le path.chars
  have hbal : Balanced init w' ↔
      w.nodes.walk root (opened path.chars) = [v] ∧ (w.nodes.refCount v).toNat + 1 < 2 ^ 64 := by
    rw [← holdAll_right _ (by omega) w.nodes.refCount v]
    unfold Balanced
    refine forall_congr' fun vn => ?_
    rw [hnodes, refCount_holdAll, hlive, hw vn, ← Nat.add_assoc (init vn)]
  have hsingle : w.nodes.walk root (opened path.chars) = [v] ↔
      (components slash path.chars).length = 1 ∧ trails path.chars = false := by
    rw [← opened_length, ← hwalk]
    refine ⟨fun h => by rw [h]; rfl, fun h => ?_⟩
    obtain ⟨u, hu⟩ := length_eq_one_iff.mp h
    have hmem : v ∈ w.nodes.walk root (opened path.chars) := by
      refine hlast fun hnil => ?_
      rw [hwalk, hnil] at h
      cases h
    rw [hu, mem_singleton] at hmem
    rw [hu, hmem]
  rw [refsRight_of_le hclosed fun vn => by rw [hlive]; exact Nat.le_add_right _ _, hbal, hsingle, and_assoc]
  refine and_congr_right fun _ => and_congr_right fun htrail => ?_
  rw [← opened_of_not_trails (Or.inr htrail), hv]
  exact ⟨fun h u hu => by cases hu; exact h, fun h => h v rfl⟩

theorem refStep_mmap {i : ℕ} {a : MmapArgs} (h : refStep fs root w (.mmap i a) = some w') :
    ∃ as, w.spaces[i]? = some as ∧ w'.nodes = w.nodes ∧ w'.closed = w.closed ∧
      ∀ vn, w'.live vn = w.live vn +
        if ¬ (mmapRefused as a = true ∧ hasFlag a.flags vmmMapFixed = true) ∧ a.vnode = some vn
        then 1 else 0 := by
  obtain ⟨as, has, h⟩ := Option.bind_eq_some_iff.mp h
  obtain ⟨⟨addr, as'⟩, hplace, h⟩ := Option.bind_eq_some_iff.mp h
  cases h
  refine ⟨as, has, rfl, rfl, fun vn => ?_⟩
  have hset := count_flatMap_set vnodesOf as' vn has
  unfold RefWorld.live
  dsimp only
  rcases mmapPlace_eq hplace with ⟨href, hfixed, hr⟩ | ⟨virt, -, hfixed, hr⟩
  · cases hr
    rw [if_neg fun h => h.1 ⟨href, hfixed⟩]
    omega
  · cases hr
    have hnot : ¬ (mmapRefused as a = true ∧ hasFlag a.flags vmmMapFixed = true) :=
      fun h => hfixed h.1 h.2
    have hseg : (mmapSegment a virt).vnode = a.vnode := rfl
    rw [count_vnodesOf_insert, hseg] at hset
    simp only [hnot, not_false_eq_true, true_and]
    omega

theorem mmap_right_iff (hw : Balanced init w) {i : ℕ} {a : MmapArgs}
    (h : refStep fs root w (.mmap i a) = some w') :
    RefsRight init w w' ↔ HoldsOnce root w (.mmap i a) := by
  obtain ⟨as, has, hnodes, hclosed, hlive⟩ := refStep_mmap h
  rw [refsRight_of_le hclosed fun vn => by rw [hlive]; exact Nat.le_add_right _ _]
  have hbal : Balanced init w' ↔ ∀ vn,
      ¬ (¬ (mmapRefused as a = true ∧ hasFlag a.flags vmmMapFixed = true) ∧ a.vnode = some vn) := by
    refine forall_congr' fun vn => ?_
    rw [hnodes, hw vn, hlive]
    split_ifs with hif
    · exact iff_of_false (by omega) (not_not.mpr hif)
    · exact iff_of_true rfl hif
  rw [hbal]
  simp only [HoldsOnce, has, Option.some.injEq, forall_eq']
  cases a.vnode with
  | none => simp
  | some v => simp

theorem refsRight_of_released (hw : Balanced init w) {l : List ℕ}
    (hlive : ∀ vn, w'.live vn + l.count vn = w.live vn)
    (hcount : ∀ vn, (w'.nodes.refCount vn).toNat + l.count vn = (w.nodes.refCount vn).toNat)
    (hclosed : ∀ vn, w'.closed.count vn = w.closed.count vn +
      if 0 < l.count vn ∧ (w'.nodes.refCount vn).toNat = 0 then 1 else 0) : RefsRight init w w' := by
  have hbal : Balanced init w' := by
    intro vn
    have h1 := hw vn
    have h2 := hlive vn
    have h3 := hcount vn
    omega
  refine ⟨hbal, fun vn => ?_⟩
  have hlast : (0 < l.count vn ∧ (w'.nodes.refCount vn).toNat = 0) ↔
      (0 < w.live vn ∧ init vn + w'.live vn = 0) := by
    have h1 := hbal vn
    have h2 := hlive vn
    omega
  rw [hclosed]
  simp only [hlast]

theorem destroy_right (hw : Balanced init w) {i : ℕ} (h : refStep fs root w (.destroy i) = some w') :
    RefsRight init w w' := by
  obtain ⟨as, has, h⟩ := Option.bind_eq_some_iff.mp h
  obtain ⟨⟨nodes, closed⟩, hdestroy, h⟩ := Option.bind_eq_some_iff.mp h
  cases h
  have hlive : ∀ vn, RefWorld.live ⟨nodes, w.spaces.eraseIdx i, w.refs, closed⟩ vn +
      (vnodesOf as).count vn = w.live vn := by
    intro vn
    have hvn := count_flatMap_eraseIdx vnodesOf vn has
    unfold RefWorld.live
    dsimp only
    omega
  have hle : ∀ vn, (vnodesOf as).count vn ≤ (w.nodes.refCount vn).toNat := by
    intro vn
    have hvn := hlive vn
    have hbal := hw vn
    omega
  have hspec := destroySegs_spec hdestroy hle
  exact refsRight_of_released hw hlive (fun vn => (hspec vn).1) fun vn => (hspec vn).2

theorem rele_right (hw : Balanced init w) {v : ℕ} (h : refStep fs root w (.rele v) = some w') :
    RefsRight init w w' := by
  obtain ⟨_, hguard, h⟩ := Option.bind_eq_some_iff.mp h
  obtain ⟨⟨b, nodes⟩, hrele, h⟩ := Option.bind_eq_some_iff.mp h
  cases h
  have hmem : v ∈ w.refs := (Option.guard_eq_some' _).mp hguard
  have hone : ∀ vn, [v].count vn = if v = vn then 1 else 0 := by
    intro vn
    rw [count_singleton]
    simp only [beq_iff_eq]
  have hpos : 0 < (w.nodes.refCount v).toNat := by
    have hbal := hw v
    have hv := count_pos_iff.mpr hmem
    unfold RefWorld.live at hbal
    omega
  obtain ⟨hcount, hclosed⟩ := vnRele_spec hrele hpos
  refine refsRight_of_released (l := [v]) hw (fun vn => ?_) (fun vn => ?_) fun vn => ?_
  · have hperm := (perm_cons_erase hmem).count_eq vn
    rw [count_cons] at hperm
    simp only [beq_iff_eq] at hperm
    rw [hone]
    unfold RefWorld.live
    dsimp only
    omega
  · rw [hone]
    exact hcount vn
  · have hone_pos : 0 < [v].count vn ↔ v = vn := by
      rw [count_pos_iff, mem_singleton, eq_comm]
    simp only [hone_pos]
    exact hclosed w.closed vn

theorem refsRight_iff (hw : Balanced init w) {op : RefOp} (h : refStep fs root w op = some w') :
    RefsRight init w w' ↔ HoldsOnce root w op := by
  cases op with
  | vfsOpen path hlen => exact open_right_iff hw h
  | mmap i a => exact mmap_right_iff hw h
  | destroy i => exact iff_of_true (destroy_right hw h) trivial
  | rele vn => exact iff_of_true (rele_right hw h) trivial

end

/-- Every call of the run is right. -/
def BalancedRun (fs : FileSystem) (root : ℕ) (init : ℕ → ℕ) (w : RefWorld) (ops : List RefOp) : Prop :=
  Meets (refStep fs root) (fun w op => ∀ w', refStep fs root w op = some w' → RefsRight init w w') w ops

/-- The references are balanced in a run exactly if it opens only single names and maps no file. -/
theorem refs_balanced_iff (fs : FileSystem) (root : ℕ) {init : ℕ → ℕ} {w t : RefWorld}
    (hw : Balanced init w) {ops : List RefOp} (hrun : run (refStep fs root) w ops = some t) :
    BalancedRun fs root init w ops ↔ Meets (refStep fs root) (HoldsOnce root) w ops := by
  refine meets_iff_of_run (I := Balanced init) (fun s op s' hs hstep => ?_)
    (fun s op s' hs hop hstep => ((refsRight_iff hs hstep).mpr hop).1) hw hrun
  rw [← refsRight_iff hs hstep]
  exact ⟨fun h => h s' hstep, fun h t ht => by cases hstep.symm.trans ht; exact h⟩

def sampleRefs : RefWorld where
  nodes :=
    { node := fun
        | 0 => some ⟨.ofList [47] (Eq.refl true), .dir, [1]⟩
        | 1 => some ⟨.ofList [100] (Eq.refl true), .dir, [2]⟩
        | 2 => some ⟨.ofList [97] (Eq.refl true), .reg, []⟩
        | _ => none
      refCount := fun _ => 0
      next := 3 }
  spaces := [vmmNewAddrSpace 0 archUserMaxVirt]
  refs := []
  closed := []

theorem sampleRefs_balanced : Balanced (fun _ => 0) sampleRefs := fun _ => rfl

def sampleOpen : RefOp := .vfsOpen (.ofList [47, 100] rfl) (by decide)

def sampleMap : MmapArgs := ⟨0x1000, 0x1000, vmmProtFull, vmmMapPrivate, some 2, 0⟩

theorem refs_balanced_iff_sample :
    Balanced (fun _ => 0) sampleRefs ∧
      ∃ t, run (refStep .initrd 0) sampleRefs [sampleOpen, .rele 1] = some t ∧
      BalancedRun .initrd 0 (fun _ => 0) sampleRefs [sampleOpen, .rele 1] := by
  obtain ⟨t, ht⟩ : ∃ t, run (refStep .initrd 0) sampleRefs [sampleOpen, .rele 1] = some t :=
    Option.ne_none_iff_exists'.mp (by decide +kernel)
  refine ⟨sampleRefs_balanced, t, ht, ?_⟩
  refine (refs_balanced_iff .initrd 0 sampleRefs_balanced ht).mpr
    ⟨?_, fun _ _ => ⟨trivial, fun _ _ => trivial⟩⟩
  refine ⟨by decide +kernel, by decide, fun v _ => ?_⟩
  exact show (0 : UInt64).toNat + 1 < 2 ^ 64 by decide

/-- After `vfs_open` of `/d/a` the count of `d` is one, and nobody has a reference on it; `vfs_open` of `/`
hands out a reference that is not counted; and a file that was mapped has a count of `2 ^ 64 - 1` when
the address space is gone. -/
theorem refs_not_balanced :
    ((refStep .initrd 0 sampleRefs (.vfsOpen (.ofList [47, 100, 47, 97] rfl) (by decide))).map fun t =>
      (t.nodes.refCount 1, t.live 1)) = some (1, 0) ∧
    ((refStep .initrd 0 sampleRefs (.vfsOpen (.ofList [47] rfl) (by decide))).map fun t =>
      (t.nodes.refCount 0, t.live 0)) = some (0, 1) ∧
    ((run (refStep .initrd 0) sampleRefs [.mmap 0 sampleMap, .destroy 0]).map fun t =>
      (t.nodes.refCount 2, t.live 2)) = some (0xFFFFFFFFFFFFFFFF, 0) := by
  decide +kernel

end LykOS.Vfs
