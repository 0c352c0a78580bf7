import LykOS.Fs.Vfs.Tree
import LykOS.Lib.Lists

/-!
# Enumerating a directory

The operation `list` of tmpfs and of initrd. A directory whose list of children starts as `LIST_INIT` is
enumerated in the order of creation, whatever is created in between (`listing_inv`). The root that
`tmpfs_get_root_vnode` makes is allocated as a `vnode_t`, and nobody initializes the list behind it: its
enumeration is right exactly if the block happens to hold the empty list there (`listing_right_iff`).
-/

namespace LykOS.Listing

open Dlist Run
open List hiding append isEmpty
open Vfs (VnodeType enotdir)
open LykOS.Lists (Node)

/-- `*hint == 0xFFFF`: the end has been reported. -/
def hintEnd : UInt64 := 0xFFFF

/-- The operation `list`, from the type of the node, its list of children, the links, and the hint: the
status, `*hint`, and the child whose name is left in `*out`. -/
abbrev ListOp := VnodeType → Hdr Node → (Node → Link Node) → UInt64 → ℤ × UInt64 × Option Node

/-- What `list` is in both file systems. -/
def listChildren : ListOp := fun type h links hint =>
  if type ≠ .dir then (enotdir, hint, none)
  else if hint = hintEnd then (eok, hint, none)
  else
    let next := if h0 : hint = 0 then h.head else (links ⟨hint, h0⟩).next
    match next with
    | some x => (eok, x.val, some x)
    | none => (eok, hintEnd, none)

/-- `tmpfs_list(self, hint, out)`. -/
def tmpfsList : ListOp := listChildren

/-- `list(self, hint, out)` of `initrd.c`. -/
def initrdList : ListOp := listChildren

inductive Origin
  | tmpfsCreate
  | tmpfsGetRootVnode
  | initrd
  deriving DecidableEq, Repr

/-- The list of children of a new directory, in a block that held `stale` there. Only the root of tmpfs
is allocated and written as a `vnode_t`. -/
def Origin.children (stale : Hdr Node) : Origin → Hdr Node
  | .tmpfsCreate => .init
  | .tmpfsGetRootVnode => stale
  | .initrd => .init

def Origin.list : Origin → ListOp
  | .tmpfsCreate | .tmpfsGetRootVnode => tmpfsList
  | .initrd => initrdList

/-- A directory, the hint of an enumeration, the children in the order of creation, those that are due, and
what the calls reported. -/
structure World where
  hdr : Hdr Node
  links : Node → Link Node
  hint : UInt64
  children : List Node
  due : List Node
  reports : List (Option Node)

/-- A new directory, and an enumeration of it. -/
def opened (h : Hdr Node) (links : Node → Link Node) : World := ⟨h, links, 0, [], [], []⟩

/-- A child is created, a new enumeration starts, or `list` is called with the hint of the last call. -/
inductive Op
  | create (x : Node)
  | start
  | list

/-- One operation; it has no result where an assertion of `list_append` fails. -/
def step (o : Origin) (w : World) : Op → Option World
  | .create x => do
    let (hdr, links) ← append w.hdr (Function.update w.links x .init) x
    return { w with hdr, links, children := w.children ++ [x],
                    due := if none ∈ w.reports then w.due else w.due ++ [x] }
  | .start => some { w with hint := 0, due := w.children, reports := [] }
  | .list =>
    let (_, hint, out) := o.list .dir w.hdr w.links w.hint
    some { w with hint, reports := w.reports ++ [out] }

/-- The list node of a new child is in no list, and aligned. -/
def Legal (w : World) : Op → Prop
  | .create x => x ∉ w.children ∧ x.val % 8 = 0
  | _ => True

instance (w : World) : (op : Op) → Decidable (Legal w op)
  | .create x => inferInstanceAs (Decidable (x ∉ w.children ∧ x.val % 8 = 0))
  | .start => inferInstanceAs (Decidable True)
  | .list => inferInstanceAs (Decidable True)

/-- The `i`-th call reports the `i`-th of the children that are due, and the end if there are no more. No
child is due twice, and they are due in the order of creation. After the end, each has been reported
exactly once. -/
structure Reported (w : World) : Prop where
  order : w.due <+: w.children
  distinct : w.due.Nodup
  reports : ∀ i < w.reports.length, w.reports[i]? = some w.due[i]?
  once : none ∈ w.reports → ∀ x ∈ w.due, w.reports.count (some x) = 1

/-- Every run of legal operations has a result, and enumerates the directory. -/
def EnumeratesRight (o : Origin) (h : Hdr Node) (links : Node → Link Node) : Prop :=
  ∀ ops, Meets (step o) Legal (opened h links) ops →
    ∃ w, run (step o) (opened h links) ops = some w ∧ Reported w

/-! ## The hint -/

def hintOf : Option Node → UInt64
  | none => 0
  | some x => x.val

/-- The place of an enumeration: behind the children it reported, or at its end. -/
inductive At (w : World) : Prop
  | behind (front back : List Node) (children : w.children = front ++ back) (due : w.due = w.children)
      (reports : w.reports = front.map some) (hint : w.hint = hintOf front.getLast?)
  | ended (m : ℕ) (reports : w.reports = w.due.map some ++ List.replicate (m + 1) none)
      (hint : w.hint = hintEnd)

/-- The invariant of the operations on a directory. -/
structure Inv (w : World) : Prop where
  rep : Rep w.hdr w.links w.children
  aligned : ∀ x ∈ w.children, x.val % 8 = 0
  due : w.due <+: w.children
  place : At w

section

variable {h : Hdr Node} {links : Node → Link Node} {l : List Node} {x : Node}

theorem hintOf_ne_end {o : Option Node} (ho : ∀ x ∈ o, x.val % 8 = 0) : hintOf o ≠ hintEnd := by
  intro heq
  cases o with
  | none => exact absurd heq (by decide)
  | some x =>
    have hx := ho x rfl
    have hval : x.val = hintEnd := heq
    rw [hval] at hx
    exact absurd hx (by decide)

theorem listChildren_end : listChildren .dir h links hintEnd = (eok, hintEnd, none) := rfl

theorem listChildren_behind {front back : List Node} (hr : Rep h links (front ++ back))
    (ha : ∀ x ∈ front, x.val % 8 = 0) :
    listChildren .dir h links (hintOf front.getLast?) =
      (eok, if back = [] then hintEnd else hintOf back.head?, back.head?) := by
  have hne : hintOf front.getLast? ≠ hintEnd := hintOf_ne_end fun x hx => ha x (mem_of_getLast? hx)
  have hnext : (if h0 : hintOf front.getLast? = 0 then h.head
      else (links ⟨hintOf front.getLast?, h0⟩).next) = back.head? := by
    rcases eq_nil_or_concat front with rfl | ⟨init, p, rfl⟩
    · exact hr.head
    · rw [concat_eq_append] at hr ⊢
      rw [getLast?_concat, dif_neg (show hintOf (some p) ≠ 0 from p.property)]
      rw [append_assoc, singleton_append] at hr
      have hlink := (linked_append.mp hr.linked).2.1
      exact congrArg Link.next hlink
  unfold listChildren
  rw [if_neg (not_not.mpr rfl), if_neg hne]
  dsimp only
  rw [hnext]
  cases back with
  | nil => rfl
  | cons y back => rfl

end

/-! ## Runs -/

section

variable {o : Origin} {w w' : World}

theorem step_list : step o w .list =
    some { w with hint := (listChildren .dir w.hdr w.links w.hint).2.1,
                  reports := w.reports ++ [(listChildren .dir w.hdr w.links w.hint).2.2] } := by
  cases o <;> rfl

theorem Inv.list (h : Inv w) : ∃ w', step o w .list = some w' ∧ Inv w' := by
  refine ⟨_, step_list, ?_⟩
  cases h.place with
  | behind front back hch hdue hrep hhint =>
    have hrep' : Rep w.hdr w.links (front ++ back) := hch ▸ h.rep
    have ha : ∀ x ∈ front, x.val % 8 = 0 := fun x hx =>
      h.aligned x (hch ▸ mem_append_left _ hx)
    rw [hhint, listChildren_behind hrep' ha]
    refine ⟨h.rep, h.aligned, h.due, ?_⟩
    cases back with
    | nil =>
      refine .ended 0 ?_ rfl
      show w.reports ++ [none] = w.due.map some ++ [none]
      rw [hrep, hdue, hch, List.append_nil]
    | cons y back =>
      refine .behind (front ++ [y]) back ?_ hdue ?_ ?_
      · rw [append_assoc]
        exact hch
      · show w.reports ++ [some y] = _
        rw [hrep, map_append]
        rfl
      · rw [getLast?_concat]
        rfl
  | ended m hrep hhint =>
    rw [hhint, listChildren_end]
    refine ⟨h.rep, h.aligned, h.due, .ended (m + 1) ?_ rfl⟩
    show w.reports ++ [none] = _
    rw [hrep, append_assoc, replicate_succ' (n := m + 1)]

theorem Inv.create (h : Inv w) {x : Node} (hx : x ∉ w.children) (hal : x.val % 8 = 0) :
    ∃ w', step o w (.create x) = some w' ∧ Inv w' := by
  have hrep : Rep w.hdr (Function.update w.links x .init) w.children :=
    h.rep.congr fun y hy => Function.update_of_ne (ne_of_mem_of_not_mem hy hx) _ _
  obtain ⟨hdr, links, happ, hrep', -⟩ := hrep.append hx
    (Lists.length_succ_lt h.rep.linked.nodup hx)
  refine ⟨_, by rw [step, happ]; rfl, hrep', fun y hy => ?_, ?_, ?_⟩
  · rcases mem_append.mp hy with hy | hy
    · exact h.aligned y hy
    · rwa [mem_singleton.mp hy]
  · dsimp only
    split_ifs with hend
    · exact h.due.trans (prefix_append _ _)
    · cases h.place with
      | behind front back hch hdue hreports hhint =>
        rw [hdue]
      | ended m hreports hhint =>
        exact absurd (by rw [hreports]; simp) hend
  · cases h.place with
    | behind front back hch hdue hreports hhint =>
      have hend : none ∉ w.reports := by
        rw [hreports]
        simp
      refine .behind front (back ++ [x]) ?_ ?_ hreports hhint
      · show w.children ++ [x] = _
        rw [hch, append_assoc]
      · show (if none ∈ w.reports then w.due else w.due ++ [x]) = _
        rw [if_neg hend, hdue]
    | ended m hreports hhint =>
      have hend : none ∈ w.reports := by
        rw [hreports]
        simp
      refine .ended m ?_ hhint
      show w.reports = (if none ∈ w.reports then w.due else w.due ++ [x]).map some ++ _
      rw [if_pos hend, hreports]

theorem Inv.step (h : Inv w) {op : Op} (hl : Legal w op) : ∃ w', step o w op = some w' ∧ Inv w' := by
  cases op with
  | create x => exact h.create hl.1 hl.2
  | start =>
    refine ⟨_, rfl, h.rep, h.aligned, prefix_refl _, ?_⟩
    exact .behind [] w.children rfl rfl rfl rfl
  | list => exact h.list

theorem opened_inv (links : Node → Link Node) : Inv (opened .init links) where
  rep := Rep.init links
  aligned _ hx := absurd hx not_mem_nil
  due := prefix_refl _
  place := .behind [] [] rfl rfl rfl rfl

theorem Inv.reported (h : Inv w) : Reported w := by
  have hnodup : w.due.Nodup := h.rep.linked.nodup.sublist h.due.sublist
  refine ⟨h.due, hnodup, fun i hi => ?_, fun hend x hx => ?_⟩
  · cases h.place with
    | behind front back hch hdue hreports hhint =>
      rw [hreports, length_map] at hi
      rw [hdue, hch, hreports, getElem?_append_left hi, getElem?_map, getElem?_eq_getElem hi]
      rfl
    | ended m hreports hhint =>
      rw [hreports] at hi ⊢
      by_cases hlt : i < w.due.length
      · rw [getElem?_append_left (by rwa [length_map]), getElem?_map, getElem?_eq_getElem hlt]
        rfl
      · rw [length_append, length_map, length_replicate] at hi
        rw [getElem?_append_right (by rw [length_map]; omega), length_map,
          getElem?_replicate_of_lt (by omega), getElem?_eq_none (by omega)]
  · cases h.place with
    | behind front back hch hdue hreports hhint =>
      rw [hreports] at hend
      simp at hend
    | ended m hreports hhint =>
      rw [hreports, count_append, count_map_of_injective _ _ (Option.some_injective _),
        count_eq_one_of_mem hnodup hx, count_replicate, if_neg (by simp)]

end

theorem listing_inv (o : Origin) (links : Node → Link Node) : EnumeratesRight o .init links := by
  intro ops hlegal
  obtain ⟨w, hrun, hinv⟩ := run_total_of_meets (fun w op h hl => Inv.step (o := o) h hl)
    (opened_inv links) hlegal
  exact ⟨w, hrun, hinv.reported⟩

/-! ## The root of tmpfs -/

def firstNode : Node := ⟨8, by decide⟩

theorem eq_init_of_right {o : Origin} {h : Hdr Node} {links : Node → Link Node}
    (hright : EnumeratesRight o h links) : h = .init := by
  obtain ⟨length, head, tail⟩ := h
  have hcreate : Legal (opened ⟨length, head, tail⟩ links) (.create firstNode) :=
    ⟨not_mem_nil, by decide⟩
  -- the first call reports what the header points to
  have hhead : head = none := by
    obtain ⟨w, hrun, hw⟩ := hright [.list] ⟨trivial, fun _ _ => trivial⟩
    rw [run_cons, step_list] at hrun
    cases hrun
    have hfirst := hw.reports 0 (by simp)
    cases head with
    | none => rfl
    | some y => exact absurd hfirst (by simp [opened, listChildren, hintEnd])
  subst hhead
  -- behind a tail, a child is not found from the head
  have htail : tail = none := by
    obtain ⟨w, hrun, hw⟩ := hright [.create firstNode, .list]
      ⟨hcreate, fun _ _ => ⟨trivial, fun _ _ => trivial⟩⟩
    cases tail with
    | none => rfl
    | some t =>
      obtain ⟨w₁, hw₁, hrun⟩ := run_cons_eq_some.mp hrun
      rw [step] at hw₁
      obtain ⟨⟨hdr, links'⟩, happ, hw₁⟩ := Option.bind_eq_some_iff.mp hw₁
      have hhead : hdr.head = none := by
        cases happ
        rfl
      cases hw₁
      rw [run_cons, step_list] at hrun
      cases hrun
      have hfirst := hw.reports 0 (by simp)
      exact absurd hfirst (by simp [opened, listChildren, hintEnd, hhead])
  subst htail
  -- and a length is checked
  have hlength : length = 0 := by
    obtain ⟨w, hrun, -⟩ := hright [.create firstNode] ⟨hcreate, fun _ _ => trivial⟩
    by_contra hne
    have hempty : append (⟨length, none, none⟩ : Hdr Node) (Function.update links firstNode .init)
        firstNode = none := by
      simp [append, insertAfter, isEmpty, hne]
    rw [run_cons, step, opened, hempty] at hrun
    cases hrun
  rw [hlength]
  rfl

/-- Every directory of tmpfs and of initrd is enumerated right, except the root that `tmpfs_get_root_vnode`
makes: that one exactly if its block held the empty list. -/
theorem listing_right_iff (o : Origin) (stale : Hdr Node) (links : Node → Link Node) :
    EnumeratesRight o (o.children stale) links ↔ o ≠ .tmpfsGetRootVnode ∨ stale = .init := by
  constructor
  · intro h
    refine or_iff_not_imp_left.mpr fun ho => ?_
    rw [not_not.mp ho] at h
    exact eq_init_of_right h
  · intro h
    have hinit : o.children stale = .init := by
      rcases h with ho | rfl
      · cases o with
        | tmpfsGetRootVnode => exact absurd rfl ho
        | _ => rfl
      · cases o <;> rfl
    rw [hinit]
    exact listing_inv o links

/-- The block of the root had a list of one node. -/
theorem stale_child_reported :
    ∃ w, run (step .tmpfsGetRootVnode)
        (opened (Origin.children ⟨1, some firstNode, some firstNode⟩ .tmpfsGetRootVnode) fun _ => .init)
        [.list] = some w ∧ w.children = [] ∧ w.reports = [some firstNode] ∧ ¬ Reported w := by
  refine ⟨_, rfl, rfl, rfl, fun h => ?_⟩
  exact absurd (h.reports 0 (by decide)) (by decide)

/-! ## The loops of the kernel -/

/-- `while (dir->ops->list(dir, &idx, &name), name)` of `kernel_main`: the children whose names it gets. -/
def listLoop (list : ListOp) (h : Hdr Node) (links : Node → Link Node) : ℕ → UInt64 → Option (List Node)
  | 0, _ => none
  | n + 1, idx =>
    match list .dir h links idx with
    | (_, _, none) => some []
    | (_, idx, some x) => (listLoop list h links n idx).map (x :: ·)

theorem listLoop_eq {h : Hdr Node} {links : Node → Link Node} {front back : List Node} {n : ℕ}
    (hr : Rep h links (front ++ back)) (ha : ∀ x ∈ front ++ back, x.val % 8 = 0) (hn : back.length < n) :
    listLoop listChildren h links n (hintOf front.getLast?) = some back := by
  induction back generalizing front n with
  | nil =>
    obtain ⟨n, rfl⟩ := Nat.exists_eq_succ_of_ne_zero (Nat.ne_of_gt hn)
    rw [listLoop, listChildren_behind hr fun x hx => ha x (mem_append_left _ hx)]
    rfl
  | cons y back ih =>
    obtain ⟨n, rfl⟩ := Nat.exists_eq_succ_of_ne_zero (Nat.ne_of_gt (Nat.zero_lt_of_lt hn))
    rw [listLoop, listChildren_behind hr fun x hx => ha x (mem_append_left _ hx)]
    have hsplit : front ++ y :: back = (front ++ [y]) ++ back := by rw [append_assoc]; rfl
    have hrest : listLoop listChildren h links n (hintOf (front ++ [y]).getLast?) = some back :=
      ih (hsplit ▸ hr) (hsplit ▸ ha) (Nat.lt_of_succ_lt_succ hn)
    rw [getLast?_concat] at hrest
    show (listLoop listChildren h links n (hintOf (some y))).map (y :: ·) = _
    rw [hrest]
    rfl

theorem listLoop_children (o : Origin) (links : Node → Link Node) {ops : List Op}
    (hlegal : Meets (step o) Legal (opened .init links) ops) :
    ∃ w, run (step o) (opened .init links) ops = some w ∧
      listLoop listChildren w.hdr w.links (w.children.length + 1) 0 = some w.children := by
  obtain ⟨w, hrun, hinv⟩ := run_total_of_meets (fun w op h hl => Inv.step (o := o) h hl)
    (opened_inv links) hlegal
  have hrep : Rep w.hdr w.links ([] ++ w.children) := hinv.rep
  exact ⟨w, hrun, listLoop_eq hrep hinv.aligned (Nat.lt_succ_self _)⟩

/-- The children come in the order in which they were created, which is not that of their addresses. -/
theorem listLoop_children_sample :
    ∃ w, run (step .tmpfsCreate) (opened .init fun _ => .init)
        [.create ⟨24, by decide⟩, .create firstNode, .create ⟨16, by decide⟩] = some w ∧
      w.children.map Subtype.val = [24, 8, 16] ∧
      listLoop listChildren w.hdr w.links (w.children.length + 1) 0 = some w.children := by
  have hlegal : Meets (step .tmpfsCreate) Legal (opened .init fun _ => .init)
      [.create ⟨24, by decide⟩, .create firstNode, .create ⟨16, by decide⟩] := by decide
  obtain ⟨w, hrun, hloop⟩ := listLoop_children .tmpfsCreate _ hlegal
  refine ⟨w, hrun, ?_, hloop⟩
  cases hrun
  rfl

end LykOS.Listing
