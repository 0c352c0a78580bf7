import Mathlib.Algebra.Ring.Int.Defs
import Mathlib.Algebra.Ring.Nat
import Mathlib.Data.List.Nodup
import Mathlib.Data.List.Perm.Subperm

/-!
# Intrusive doubly linked lists

A list is a header with a length and pointers to its ends, and its nodes carry the links. `Rep h links l`:
the header `h` is that of the list of the nodes `l`. Appending a node that is not on the list and taking off
its head do what they should (`Rep.append`, `Rep.popHead`), and change links of the list's own nodes only. A
node that is appended to the list it is on already breaks it (`Rep.append_again`), and one that is on
another list is on both after that (`Rep.mem_other`).

An operation has no result where its assertion fails.
-/

namespace Dlist

open Function List

variable {α : Type*} [DecidableEq α]

/-- `list_node_t`. -/
structure Link (α : Type*) where
  prev : Option α
  next : Option α
  deriving DecidableEq, Repr

/-- `list_t`. -/
structure Hdr (α : Type*) where
  length : UInt64
  head : Option α
  tail : Option α
  deriving DecidableEq, Repr

/-- `LIST_NODE_INIT`. -/
def Link.init : Link α := ⟨none, none⟩

/-- `LIST_INIT`. -/
def Hdr.init : Hdr α := ⟨0, none, none⟩

/-! ## Operations -/

/-- `list_is_empty`. -/
def isEmpty (h : Hdr α) : Option Bool :=
  if h.head.isNone = decide (h.length = 0) then some h.head.isNone else none

/-- `list_insert_after`; its assignments are made one after the other, as the nodes may be the same. -/
def insertAfter (h : Hdr α) (links : α → Link α) (pos : Option α) (new : α) :
    Option (Hdr α × (α → Link α)) :=
  match pos with
  | none =>
    if isEmpty h = some true then
      some (⟨h.length + 1, some new, some new⟩, Function.update links new ⟨none, none⟩)
    else none
  | some p =>
    let links := Function.update links new ⟨some p, (links p).next⟩
    let links := match (links new).next with
      | none => links
      | some r => Function.update links r ⟨some new, (links r).next⟩
    let links := Function.update links p ⟨(links p).prev, some new⟩
    some (⟨h.length + 1, h.head, if h.tail = some p then some new else h.tail⟩, links)

/-- `list_insert_before`. -/
def insertBefore (h : Hdr α) (links : α → Link α) (pos : Option α) (new : α) :
    Option (Hdr α × (α → Link α)) :=
  match pos with
  | none =>
    if isEmpty h = some true then
      some (⟨h.length + 1, some new, some new⟩, Function.update links new ⟨none, none⟩)
    else none
  | some p =>
    let links := Function.update links new ⟨(links p).prev, some p⟩
    let links := match (links new).prev with
      | none => links
      | some q => Function.update links q ⟨(links q).prev, some new⟩
    let links := Function.update links p ⟨some new, (links p).next⟩
    some (⟨h.length + 1, if h.head = some p then some new else h.head, h.tail⟩, links)

/-- `list_append`. -/
def append (h : Hdr α) (links : α → Link α) (node : α) : Option (Hdr α × (α → Link α)) :=
  insertAfter h links h.tail node

/-- `list_prepend`. -/
def prepend (h : Hdr α) (links : α → Link α) (node : α) : Option (Hdr α × (α → Link α)) :=
  insertBefore h links h.head node

/-- `list_remove`. -/
def remove (h : Hdr α) (links : α → Link α) (node : α) : Hdr α × (α → Link α) :=
  let links := match (links node).prev with
    | none => links
    | some p => Function.update links p ⟨(links p).prev, (links node).next⟩
  let links := match (links node).next with
    | none => links
    | some n => Function.update links n ⟨(links node).prev, (links n).next⟩
  (⟨h.length - 1, if h.head = some node then (links node).next else h.head,
    if h.tail = some node then (links node).prev else h.tail⟩, links)

/-- `list_pop_head`. -/
def popHead (h : Hdr α) (links : α → Link α) : Option α × Hdr α × (α → Link α) :=
  match h.head with
  | none => (none, h, links)
  | some node => (some node, remove h links node)

/-- `list_pop_tail`. -/
def popTail (h : Hdr α) (links : α → Link α) : Option α × Hdr α × (α → Link α) :=
  match h.tail with
  | none => (none, h, links)
  | some node => (some node, remove h links node)

/-- `FOREACH`: the nodes from `pos` on along the links, if they come to an end within `n` nodes. -/
def foreach (next : α → Option α) : ℕ → Option α → Option (List α)
  | _, none => some []
  | 0, some _ => none
  | n + 1, some x => (foreach next n (next x)).map (x :: ·)

/-! ## Representation -/

/-- The nodes of `l` are linked one after the other, with `prev` in front of the first one. -/
def Linked (links : α → Link α) : Option α → List α → Prop
  | _, [] => True
  | prev, x :: l => links x = ⟨prev, l.head?⟩ ∧ Linked links (some x) l

/-- `h` is the header of the list of the nodes `l`. -/
structure Rep (h : Hdr α) (links : α → Link α) (l : List α) : Prop where
  head : h.head = l.head?
  tail : h.tail = l.getLast?
  length : h.length.toNat = l.length
  linked : Linked links none l

section Linked

variable {links links' : α → Link α} {prev prev' : Option α} {l l' : List α} {x y : α}

omit [DecidableEq α]

theorem Linked.congr (h : Linked links prev l) (heq : ∀ x ∈ l, links' x = links x) :
    Linked links' prev l := by
  induction l generalizing prev with
  | nil => trivial
  | cons x l ih =>
    obtain ⟨hx, hl⟩ := h
    exact ⟨(heq x mem_cons_self).trans hx,
      ih hl fun y hy => heq y (mem_cons_of_mem _ hy)⟩

theorem Linked.unique (h : Linked links prev l) (h' : Linked links prev' l')
    (hhead : l.head? = l'.head?) : l = l' := by
  induction l generalizing prev prev' l' with
  | nil =>
    cases l' with
    | nil => rfl
    | cons y l' => cases hhead
  | cons x l ih =>
    cases l' with
    | nil => cases hhead
    | cons y l' =>
      obtain rfl : x = y := Option.some.inj hhead
      have hnext : l.head? = l'.head? := by
        have := h.1.symm.trans h'.1
        exact congrArg Link.next this
      rw [ih h.2 h'.2 hnext]

theorem Linked.of_append {a b : List α} (h : Linked links prev (a ++ b)) :
    ∃ p, Linked links p b := by
  induction a generalizing prev with
  | nil => exact ⟨prev, h⟩
  | cons x a ih => exact ih h.2

theorem Linked.nodup (h : Linked links prev l) : l.Nodup := by
  induction l generalizing prev with
  | nil => exact nodup_nil
  | cons x l ih =>
    refine nodup_cons.mpr ⟨fun hx => ?_, ih h.2⟩
    -- the list would be linked at two places behind its first node
    obtain ⟨a, b, rfl⟩ := append_of_mem hx
    obtain ⟨p, hp⟩ := h.2.of_append
    have heq := hp.unique h rfl
    have hlen := congrArg List.length heq
    simp only [length_cons, length_append] at hlen
    omega

theorem Linked.next_mem (h : Linked links prev l) (hx : x ∈ l) (hy : (links x).next = some y) :
    y ∈ l := by
  induction l generalizing prev with
  | nil => cases hx
  | cons z l ih =>
    rcases mem_cons.mp hx with rfl | hx
    · rw [h.1] at hy
      exact mem_cons_of_mem _ (mem_of_mem_head? hy)
    · exact mem_cons_of_mem _ (ih h.2 hx)

theorem Linked.subset_of_closed (h : Linked links prev l) {S : List α}
    (hclosed : ∀ x ∈ S, ∀ y, (links x).next = some y → y ∈ S) (hhead : ∀ x, l.head? = some x → x ∈ S) :
    ∀ x ∈ l, x ∈ S := by
  induction l generalizing prev with
  | nil => exact fun x hx => nomatch hx
  | cons z l ih =>
    have hz : z ∈ S := hhead z rfl
    have hrest := ih h.2 fun x hx => hclosed z hz x (by rw [h.1]; exact hx)
    intro x hx
    rcases mem_cons.mp hx with rfl | hx
    · exact hz
    · exact hrest x hx

theorem Linked.mem_of_walk {a b : List α} (h : Linked links prev (a ++ x :: b))
    (h' : Linked links' prev' l') (hhead : l'.head? = (a ++ x :: b).head?)
    (heq : ∀ y ∈ a, links' y = links y) : x ∈ l' := by
  induction a generalizing prev prev' l' with
  | nil => exact mem_of_mem_head? hhead
  | cons z a ih =>
    cases l' with
    | nil => cases hhead
    | cons y l' =>
      obtain rfl : y = z := Option.some.inj hhead
      have hnext : l'.head? = (a ++ x :: b).head? := by
        have := h'.1.symm.trans ((heq y mem_cons_self).trans h.1)
        exact congrArg Link.next this
      exact mem_cons_of_mem _ (ih h.2 h'.2 hnext fun w hw => heq w (mem_cons_of_mem _ hw))

end Linked

/-! ## Parts of a list -/

/-- The nodes of `l` are linked one after the other, between `prev` and `next`. -/
def Seg (links : α → Link α) : Option α → List α → Option α → Prop
  | _, [], _ => True
  | prev, x :: l, next => links x = ⟨prev, l.head?.or next⟩ ∧ Seg links (some x) l next

/-- The node `o`, if any, is now followed by `v`. -/
def setNext (links : α → Link α) (o v : Option α) : α → Link α :=
  match o with
  | none => links
  | some p => Function.update links p ⟨(links p).prev, v⟩

/-- The node `o`, if any, is now preceded by `v`. -/
def setPrev (links : α → Link α) (o v : Option α) : α → Link α :=
  match o with
  | none => links
  | some n => Function.update links n ⟨v, (links n).next⟩

section Seg

variable {links links' : α → Link α} {prev next v o : Option α} {a b l : List α} {x : α}

theorem setNext_of_ne (h : o ≠ some x) : setNext links o v x = links x := by
  cases o with
  | none => rfl
  | some p => exact update_of_ne (fun e => h (congrArg some e.symm)) _ _

theorem setPrev_of_ne (h : o ≠ some x) : setPrev links o v x = links x := by
  cases o with
  | none => rfl
  | some p => exact update_of_ne (fun e => h (congrArg some e.symm)) _ _

omit [DecidableEq α] in
theorem linked_iff_seg : Linked links prev l ↔ Seg links prev l none := by
  induction l generalizing prev with
  | nil => exact Iff.rfl
  | cons x l ih => simp only [Linked, Seg, Option.or_none, ih]

omit [DecidableEq α] in
theorem Seg.congr (h : Seg links prev l next) (heq : ∀ x ∈ l, links' x = links x) :
    Seg links' prev l next := by
  induction l generalizing prev with
  | nil => trivial
  | cons x l ih =>
    obtain ⟨hx, hl⟩ := h
    exact ⟨(heq x mem_cons_self).trans hx, ih hl fun y hy => heq y (mem_cons_of_mem _ hy)⟩

omit [DecidableEq α] in
theorem seg_append : Seg links prev (a ++ b) next ↔
    Seg links prev a (b.head?.or next) ∧ Seg links (a.getLast?.or prev) b next := by
  induction a generalizing prev with
  | nil => simp [Seg]
  | cons x a ih =>
    have hlast : (x :: a).getLast?.or prev = a.getLast?.or (some x) := by
      rw [getLast?_cons]
      cases a.getLast? <;> rfl
    simp only [cons_append, Seg, head?_append, Option.or_assoc, ih, hlast, and_assoc]

omit [DecidableEq α] in
theorem linked_append : Linked links prev (a ++ b) ↔
    Seg links prev a b.head? ∧ Linked links (a.getLast?.or prev) b := by
  rw [linked_iff_seg, seg_append, Option.or_none, linked_iff_seg]

theorem Seg.setNext (h : Seg links prev a next) (hnd : a.Nodup) :
    Seg (setNext links a.getLast? v) prev a v := by
  rcases eq_nil_or_concat a with rfl | ⟨init, p, rfl⟩
  · trivial
  · rw [concat_eq_append] at h hnd ⊢
    rw [getLast?_concat]
    obtain ⟨hinit, hp, -⟩ := seg_append.mp h
    have hpi : p ∉ init := fun hm => (nodup_append.mp hnd).2.2 p hm p (by simp) rfl
    refine seg_append.mpr ⟨?_, ?_, trivial⟩
    · refine hinit.congr fun y hy => setNext_of_ne fun e => hpi ?_
      exact Option.some.inj e ▸ hy
    · simp only [Dlist.setNext, update_self, hp]
      rfl

theorem Linked.setPrev (h : Linked links prev b) (hnd : b.Nodup) :
    Linked (setPrev links b.head? v) v b := by
  cases b with
  | nil => trivial
  | cons x b =>
    obtain ⟨hx, hb⟩ := h
    refine ⟨?_, hb.congr fun y hy => setPrev_of_ne fun e => ?_⟩
    · simp only [Dlist.setPrev, head?_cons, update_self, hx]
    · exact (nodup_cons.mp hnd).1 (Option.some.inj e ▸ hy)

theorem setNext_setPrev_comm {o' v' : Option α} (hne : ∀ x ∈ o, o' ≠ some x) :
    setNext (setPrev links o' v') o v = setPrev (setNext links o v) o' v' := by
  cases o with
  | none => rfl
  | some p =>
    cases o' with
    | none => rfl
    | some n =>
      have hpn : p ≠ n := fun e => hne p rfl (congrArg some e.symm)
      simp only [Dlist.setNext, Dlist.setPrev, update_of_ne hpn, update_of_ne hpn.symm]
      exact (update_comm hpn _ _ _).symm

theorem Linked.insert (hl : Linked links none (a ++ b)) (hx : x ∉ a ++ b) :
    Linked (Dlist.setNext (Dlist.setPrev (update links x ⟨a.getLast?, b.head?⟩) b.head? (some x))
      a.getLast? (some x)) none (a ++ x :: b) := by
  obtain ⟨ha, hb⟩ := linked_append.mp hl
  obtain ⟨hnda, hndb, hapart⟩ := nodup_append.mp hl.nodup
  have hxa : x ∉ a := fun hm => hx (mem_append_left _ hm)
  have hxb : x ∉ b := fun hm => hx (mem_append_right _ hm)
  have hnew : ∀ y, y ∈ a ++ b → update links x ⟨a.getLast?, b.head?⟩ y = links y :=
    fun y hy => update_of_ne (by rintro rfl; exact hx hy) _ _
  have hlast : ∀ y, y ∉ a → a.getLast? ≠ some y := fun y hy e => hy (mem_of_getLast? e)
  have hhead : ∀ y, y ∉ b → b.head? ≠ some y := fun y hy e => hy (mem_of_mem_head? e)
  refine linked_append.mpr ⟨Seg.setNext (ha.congr fun y hy => ?_) hnda, ?_, ?_⟩
  · rw [setPrev_of_ne (hhead y fun hm => hapart y hy y hm rfl), hnew y (mem_append_left _ hy)]
  · rw [setNext_of_ne (hlast x hxa), setPrev_of_ne (hhead x hxb), update_self, Option.or_none]
  · have hb' := hb.congr fun y hy => hnew y (mem_append_right _ hy)
    refine (hb'.setPrev hndb).congr fun y hy => setNext_of_ne ?_
    exact hlast y fun hm => hapart y hm y hy rfl

theorem Linked.remove (hl : Linked links none (a ++ x :: b)) :
    Linked (Dlist.setPrev (Dlist.setNext links a.getLast? b.head?) b.head? a.getLast?) none (a ++ b) := by
  obtain ⟨ha, -, hb⟩ := linked_append.mp hl
  obtain ⟨hnda, hndb, hapart⟩ := nodup_append.mp hl.nodup
  have hnd : ∀ y ∈ a, y ∉ b := fun y hy hm => hapart y hy y (mem_cons_of_mem _ hm) rfl
  refine linked_append.mpr ⟨?_, ?_⟩
  · refine (ha.setNext hnda).congr fun y hy => setPrev_of_ne fun e => ?_
    exact hnd y hy (mem_of_mem_head? e)
  · rw [Option.or_none]
    refine (hb.congr fun y hy => setNext_of_ne fun e => ?_).setPrev (nodup_cons.mp hndb).2
    exact hnd y (mem_of_getLast? e) hy

/-- The links of a list read from its other end. -/
def Link.swap (l : Link α) : Link α := ⟨l.next, l.prev⟩

omit [DecidableEq α] in
theorem Seg.swap (h : Seg links prev l next) : Seg (fun x => (links x).swap) next l.reverse prev := by
  induction l generalizing prev with
  | nil => trivial
  | cons x l ih =>
    obtain ⟨hx, hl⟩ := h
    rw [reverse_cons]
    refine seg_append.mpr ⟨ih hl, ?_, trivial⟩
    simp only [hx, Link.swap, getLast?_reverse, head?_nil, Option.none_or]

omit [DecidableEq α] in
theorem Linked.foreach (h : Linked links prev l) {n : ℕ} (hn : l.length ≤ n) :
    foreach (fun x => (links x).next) n l.head? = some l := by
  induction l generalizing prev n with
  | nil => cases n <;> rfl
  | cons x l ih =>
    obtain ⟨hx, hl⟩ := h
    cases n with
    | zero => cases hn
    | succ n =>
      have hrest := ih hl (Nat.le_of_succ_le_succ hn)
      simp only [Dlist.foreach, head?_cons, hx, hrest, Option.map_some]

end Seg

section Rep

variable {h h' : Hdr α} {links links' : α → Link α} {l l' : List α} {x y : α}

omit [DecidableEq α]

theorem Rep.unique (hr : Rep h links l) (hr' : Rep h links l') : l = l' :=
  hr.linked.unique hr'.linked (hr.head.symm.trans hr'.head)

theorem Rep.congr (hr : Rep h links l) (heq : ∀ x ∈ l, links' x = links x) : Rep h links' l :=
  ⟨hr.head, hr.tail, hr.length, hr.linked.congr heq⟩

theorem Rep.forward (hr : Rep h links l) {n : ℕ} (hn : l.length ≤ n) :
    foreach (fun x => (links x).next) n h.head = some l := by
  rw [hr.head]
  exact hr.linked.foreach hn

def members (h : Hdr α) (links : α → Link α) : List α :=
  (foreach (fun x => (links x).next) h.length.toNat h.head).getD []

theorem Rep.members (hr : Rep h links l) : members h links = l := by
  rw [Dlist.members, hr.forward (Nat.le_of_eq hr.length.symm)]
  rfl

theorem Rep.backward (hr : Rep h links l) {n : ℕ} (hn : l.length ≤ n) :
    foreach (fun x => (links x).prev) n h.tail = some l.reverse := by
  rw [hr.tail, ← head?_reverse]
  have hswap : Linked (fun x => (links x).swap) none l.reverse :=
    linked_iff_seg.mpr (linked_iff_seg.mp hr.linked).swap
  exact hswap.foreach (by rwa [length_reverse])

theorem Rep.init (links : α → Link α) : Rep .init links [] := ⟨rfl, rfl, rfl, trivial⟩

theorem Rep.isEmpty (hr : Rep h links l) : isEmpty h = some l.isEmpty := by
  have hlen : h.length = 0 ↔ l.length = 0 := by
    rw [← hr.length, ← UInt64.toNat_inj]
    rfl
  unfold Dlist.isEmpty
  rw [hr.head]
  cases l with
  | nil => simp [hlen]
  | cons x l => simp [hlen]

end Rep

/-! ## Inserting -/

section Insert

variable {h : Hdr α} {links : α → Link α} {a b l : List α} {x p : α}

omit [DecidableEq α] in
theorem length_succ (hr : Rep h links l) (hlen : l.length + 1 < 2 ^ 64) :
    (h.length + 1).toNat = l.length + 1 := by
  rw [UInt64.toNat_add, hr.length]
  exact Nat.mod_eq_of_lt hlen

theorem Rep.insertAfter_nil (hr : Rep h links []) (x : α) :
    ∃ h' links', Dlist.insertAfter h links none x = some (h', links') ∧ Rep h' links' [x] ∧
      ∀ y, y ≠ x → links' y = links y := by
  have hempty : Dlist.isEmpty h = some true := hr.isEmpty
  refine ⟨_, _, by rw [Dlist.insertAfter, if_pos hempty],
    ⟨rfl, rfl, length_succ hr (by simp), ?_, trivial⟩, fun y hy => update_of_ne hy _ _⟩
  rw [update_self]
  rfl

theorem Rep.insertAfter (hr : Rep h links (a ++ p :: b)) (hx : x ∉ a ++ p :: b)
    (hlen : (a ++ p :: b).length + 1 < 2 ^ 64) :
    ∃ h' links', Dlist.insertAfter h links (some p) x = some (h', links') ∧
      Rep h' links' (a ++ p :: x :: b) ∧ ∀ y, y ∉ a ++ p :: b → y ≠ x → links' y = links y := by
  have hp : (links p).next = b.head? := by
    rw [(linked_append.mp hr.linked).2.1]
  have heq : Dlist.insertAfter h links (some p) x =
      some (⟨h.length + 1, h.head, if h.tail = some p then some x else h.tail⟩,
        setNext (setPrev (update links x ⟨some p, b.head?⟩) b.head? (some x))
          (some p) (some x)) := by
    rw [← hp]
    simp only [Dlist.insertAfter, update_self]
    rfl
  have hsplit : a ++ p :: b = a ++ [p] ++ b := by simp
  have hlast : (a ++ [p]).getLast? = some p := getLast?_concat
  have hlinked := hr.linked
  rw [hsplit] at hlinked
  have hins := hlinked.insert (hsplit ▸ hx)
  rw [hlast, append_assoc] at hins
  refine ⟨_, _, heq, ⟨?_, ?_, ?_, hins⟩, fun y hy hyx => ?_⟩
  · rw [hr.head]
    cases a <;> rfl
  · dsimp only
    rw [hr.tail]
    rcases eq_nil_or_concat b with rfl | ⟨init, z, rfl⟩
    · simp
    · rw [concat_eq_append] at hr ⊢
      have hzp : z ≠ p := by
        have hnd := (nodup_append.mp hr.linked.nodup).2.1
        exact fun e => (nodup_cons.mp hnd).1 (by simp [e])
      have hend : ∀ c : List α, (c ++ (init ++ [z])).getLast? = some z := fun c => by
        rw [← append_assoc, getLast?_concat]
      rw [show a ++ p :: (init ++ [z]) = a ++ [p] ++ (init ++ [z]) by simp, hend,
        if_neg fun e => hzp (Option.some.inj e),
        show a ++ p :: x :: (init ++ [z]) = a ++ [p, x] ++ (init ++ [z]) by simp, hend]
  · rw [length_succ hr hlen]
    simp only [length_append, length_cons]
    rfl
  · have hyp : y ≠ p := fun e => hy (by simp [e])
    have hyb : b.head? ≠ some y := fun e =>
      hy (mem_append_right _ (mem_cons_of_mem _ (mem_of_mem_head? e)))
    rw [setNext_of_ne fun e => hyp (Option.some.inj e).symm, setPrev_of_ne hyb, update_of_ne hyx]

theorem Rep.insertBefore_nil (hr : Rep h links []) (x : α) :
    ∃ h' links', Dlist.insertBefore h links none x = some (h', links') ∧ Rep h' links' [x] ∧
      ∀ y, y ≠ x → links' y = links y :=
  hr.insertAfter_nil x

theorem Rep.insertBefore (hr : Rep h links (a ++ p :: b)) (hx : x ∉ a ++ p :: b)
    (hlen : (a ++ p :: b).length + 1 < 2 ^ 64) :
    ∃ h' links', Dlist.insertBefore h links (some p) x = some (h', links') ∧
      Rep h' links' (a ++ x :: p :: b) ∧ ∀ y, y ∉ a ++ p :: b → y ≠ x → links' y = links y := by
  have hp : (links p).prev = a.getLast? := by
    rw [(linked_append.mp hr.linked).2.1, Option.or_none]
  have hpa : p ∉ a := fun hm =>
    (nodup_append.mp hr.linked.nodup).2.2 p hm p mem_cons_self rfl
  have heq : Dlist.insertBefore h links (some p) x =
      some (⟨h.length + 1, if h.head = some p then some x else h.head, h.tail⟩,
        setPrev (setNext (update links x ⟨a.getLast?, some p⟩) a.getLast? (some x))
          (some p) (some x)) := by
    rw [← hp]
    simp only [Dlist.insertBefore, update_self]
    rfl
  have hins := hr.linked.insert hx
  have hne : ∀ y ∈ a.getLast?, some p ≠ some y := by
    rintro y hy e
    cases e
    exact hpa (mem_of_getLast? hy)
  rw [head?_cons, setNext_setPrev_comm hne] at hins
  refine ⟨_, _, heq, ⟨?_, ?_, ?_, hins⟩, fun y hy hyx => ?_⟩
  · dsimp only
    rw [hr.head]
    cases a with
    | nil => simp
    | cons z a =>
      have hzp : z ≠ p := fun e => hpa (by simp [e])
      simp [hzp]
  · dsimp only
    rw [hr.tail]
    simp [getLast?_append, getLast?_cons]
  · rw [length_succ hr hlen]
    simp only [length_append, length_cons]
    rfl
  · have hyp : y ≠ p := fun e => hy (by simp [e])
    have hya : a.getLast? ≠ some y := fun e => hy (mem_append_left _ (mem_of_getLast? e))
    rw [setPrev_of_ne fun e => hyp (Option.some.inj e).symm, setNext_of_ne hya, update_of_ne hyx]

theorem Rep.prepend (hr : Rep h links l) (hx : x ∉ l) (hlen : l.length + 1 < 2 ^ 64) :
    ∃ h' links', Dlist.prepend h links x = some (h', links') ∧ Rep h' links' (x :: l) ∧
      ∀ y, y ∉ l → y ≠ x → links' y = links y := by
  cases l with
  | nil =>
    have hhead : h.head = none := hr.head
    obtain ⟨h', links', hins, hrep, hframe⟩ := hr.insertBefore_nil x
    exact ⟨h', links', by rw [Dlist.prepend, hhead, hins], hrep, fun y _ => hframe y⟩
  | cons p l =>
    have hhead : h.head = some p := hr.head
    obtain ⟨h', links', hins, hrep, hframe⟩ := Rep.insertBefore (a := []) hr hx hlen
    exact ⟨h', links', by rw [Dlist.prepend, hhead, hins], hrep, hframe⟩

end Insert

/-! ## Appending -/

section Append

variable {h h' : Hdr α} {links links' : α → Link α} {l l' : List α} {x y p : α}

theorem Rep.append_eq (hr : Rep h links (l ++ [p])) (x : α) :
    Dlist.append h links x = some (⟨h.length + 1, h.head, some x⟩, update (update links x ⟨some p, none⟩) p
        ⟨(update links x ⟨some p, none⟩ p).prev, some x⟩) := by
  have htail : h.tail = some p := by rw [hr.tail, getLast?_concat]
  have hnext : (links p).next = none := by
    obtain ⟨q, hq⟩ := hr.linked.of_append
    rw [hq.1]
    rfl
  simp only [Dlist.append, Dlist.insertAfter, htail, hnext, update_self, if_true]

theorem Rep.append_nil (hr : Rep h links []) (x : α) :
    Dlist.append h links x = some (⟨h.length + 1, some x, some x⟩,
      update links x ⟨none, none⟩) := by
  have htail : h.tail = none := hr.tail
  have hempty : Dlist.isEmpty h = some true := hr.isEmpty
  simp only [Dlist.append, Dlist.insertAfter, htail, hempty, if_true]

theorem Rep.append (hr : Rep h links l) (hx : x ∉ l) (hlen : l.length + 1 < 2 ^ 64) :
    ∃ h' links', Dlist.append h links x = some (h', links') ∧ Rep h' links' (l ++ [x]) ∧
      ∀ y, y ∉ l → y ≠ x → links' y = links y := by
  rcases eq_nil_or_concat l with rfl | ⟨init, p, rfl⟩
  · have htail : h.tail = none := hr.tail
    obtain ⟨h', links', hins, hrep, hframe⟩ := hr.insertAfter_nil x
    exact ⟨h', links', by rw [Dlist.append, htail, hins], hrep, fun y _ => hframe y⟩
  · rw [concat_eq_append] at hr hx hlen ⊢
    have htail : h.tail = some p := by rw [hr.tail, getLast?_concat]
    obtain ⟨h', links', hins, hrep, hframe⟩ := hr.insertAfter hx hlen
    rw [append_assoc]
    exact ⟨h', links', by rw [Dlist.append, htail, hins], hrep, hframe⟩

theorem Rep.append_mem (hr : Rep h links l) (happ : Dlist.append h links x = some (h', links'))
    (hr' : Rep h' links' l') : x ∈ l' := by
  have htail : h'.tail = some x := by
    rcases eq_nil_or_concat l with rfl | ⟨init, p, rfl⟩
    · rw [hr.append_nil x] at happ
      cases happ
      rfl
    · rw [concat_eq_append] at hr
      rw [hr.append_eq x] at happ
      cases happ
      rfl
  exact mem_of_getLast? (hr'.tail.symm.trans htail)

theorem Rep.append_links (hr : Rep h links l) (happ : Dlist.append h links x = some (h', links'))
    (hyx : y ≠ x) (hy : y ∉ l) : links' y = links y := by
  rcases eq_nil_or_concat l with rfl | ⟨init, p, rfl⟩
  · rw [hr.append_nil x] at happ
    cases happ
    rw [update_of_ne hyx]
  · rw [concat_eq_append] at hr hy
    have hyp : y ≠ p := fun e => hy (by simp [e])
    rw [hr.append_eq x] at happ
    cases happ
    rw [update_of_ne hyp, update_of_ne hyx]

theorem Rep.append_again (hr : Rep h links l) (hx : x ∈ l) (hlen : l.length + 1 < 2 ^ 64)
    (happ : Dlist.append h links x = some (h', links')) : ¬ Rep h' links' l' := by
  intro hr'
  rcases eq_nil_or_concat l with rfl | ⟨init, p, rfl⟩
  · cases hx
  · rw [concat_eq_append] at hr hx hlen
    have hpl : p ∈ init ++ [p] := by simp
    have hsucc := length_succ hr hlen
    rw [hr.append_eq x] at happ
    cases happ
    -- the links stay among the nodes of the list, of which there is one too few
    have hsub := hr'.linked.subset_of_closed (S := init ++ [p]) (fun y hy z hz => ?_)
      fun y hy => ?_
    · have hle := (hr'.linked.nodup.subperm hsub).length_le
      have hlen' : (h.length + 1).toNat = l'.length := hr'.length
      omega
    · by_cases hyp : y = p
      · subst hyp
        rw [update_self] at hz
        exact Option.some.inj hz ▸ hx
      · rw [update_of_ne hyp] at hz
        by_cases hyx : y = x
        · subst hyx
          rw [update_self] at hz
          cases hz
        · rw [update_of_ne hyx] at hz
          exact hr.linked.next_mem hy hz
    · have hhead : h.head = some y := hr'.head.trans hy
      exact mem_of_mem_head? (hr.head.symm.trans hhead)

theorem Rep.mem_other {k : Hdr α} {m m' : List α} (hr : Rep h links l) (hm : Rep k links m)
    (hx : x ∈ m) (hapart : ∀ y ∈ m, y ∉ l) (happ : Dlist.append h links x = some (h', links'))
    (hm' : Rep k links' m') : x ∈ m' := by
  obtain ⟨a, b, rfl⟩ := append_of_mem hx
  refine hm.linked.mem_of_walk hm'.linked (hm'.head.symm.trans hm.head) fun y hy => ?_
  have hyx : y ≠ x := by
    rintro rfl
    have := nodup_append.mp hm.linked.nodup
    exact this.2.2 y hy y mem_cons_self rfl
  exact hr.append_links happ hyx (hapart y (mem_append_left _ hy))

end Append

/-! ## Removing -/

section Remove

variable {h : Hdr α} {links : α → Link α} {a b l : List α} {x : α}

theorem remove_eq : remove h links x =
    let links := setNext links (links x).prev (links x).next
    let links := setPrev links (links x).next (links x).prev
    (⟨h.length - 1, if h.head = some x then (links x).next else h.head,
      if h.tail = some x then (links x).prev else h.tail⟩, links) := rfl

theorem Rep.remove (hr : Rep h links (a ++ x :: b)) :
    Rep (remove h links x).1 (remove h links x).2 (a ++ b) ∧
      ∀ y, y ∉ a ++ b → (remove h links x).2 y = links y := by
  obtain ⟨-, hx, -⟩ := linked_append.mp hr.linked
  obtain ⟨-, hndb, hapart⟩ := nodup_append.mp hr.linked.nodup
  have hxa : x ∉ a := fun hm => hapart x hm x mem_cons_self rfl
  have hxb : x ∉ b := (nodup_cons.mp hndb).1
  rw [Option.or_none] at hx
  have hkeep : setNext links a.getLast? b.head? x = links x :=
    setNext_of_ne fun e => hxa (mem_of_getLast? e)
  have hkeep' : setPrev (setNext links a.getLast? b.head?) b.head? a.getLast? x = links x :=
    (setPrev_of_ne fun e => hxb (mem_of_mem_head? e)).trans hkeep
  have heq : Dlist.remove h links x =
      (⟨h.length - 1, if h.head = some x then b.head? else h.head,
        if h.tail = some x then a.getLast? else h.tail⟩,
        setPrev (setNext links a.getLast? b.head?) b.head? a.getLast?) := by
    simp only [remove_eq, hx, hkeep, hkeep']
  rw [heq]
  refine ⟨⟨?_, ?_, ?_, hr.linked.remove⟩, fun y hy => ?_⟩
  · dsimp only
    rw [hr.head]
    cases a with
    | nil => simp
    | cons z a =>
      have hzx : z ≠ x := fun e => hxa (by simp [e])
      simp [hzx]
  · dsimp only
    rw [hr.tail]
    rcases eq_nil_or_concat b with rfl | ⟨init, z, rfl⟩
    · simp
    · rw [concat_eq_append] at hxb ⊢
      have hzx : z ≠ x := fun e => hxb (by simp [e])
      have hlast : (a ++ x :: (init ++ [z])).getLast? = some z := by
        rw [← cons_append, ← append_assoc, getLast?_concat]
      rw [hlast, if_neg fun e => hzx (Option.some.inj e), ← append_assoc, getLast?_concat]
  · have hlen := hr.length
    simp only [length_append, length_cons] at hlen
    have hle : (1 : UInt64) ≤ h.length := by
      rw [UInt64.le_iff_toNat_le, hlen]
      exact Nat.le_add_left 1 (a.length + b.length)
    rw [UInt64.toNat_sub_of_le _ _ hle, hlen, length_append]
    rfl
  · dsimp only
    rw [setPrev_of_ne fun e => hy (mem_append_right _ (mem_of_mem_head? e)),
      setNext_of_ne fun e => hy (mem_append_left _ (mem_of_getLast? e))]

theorem popHead_fst : (popHead h links).1 = h.head := by
  unfold Dlist.popHead
  cases h.head <;> rfl

theorem Rep.popHead (hr : Rep h links (x :: l)) :
    ∃ h' links', Dlist.popHead h links = (some x, h', links') ∧ Rep h' links' l ∧
      ∀ y, y ∉ l → links' y = links y := by
  have hhead : h.head = some x := hr.head
  obtain ⟨hrep, hframe⟩ := Rep.remove (a := []) hr
  exact ⟨_, _, by rw [Dlist.popHead, hhead], hrep, hframe⟩

theorem Rep.popTail (hr : Rep h links (l ++ [x])) :
    ∃ h' links', Dlist.popTail h links = (some x, h', links') ∧ Rep h' links' l ∧
      ∀ y, y ∉ l → links' y = links y := by
  have htail : h.tail = some x := by rw [hr.tail, getLast?_concat]
  obtain ⟨hrep, hframe⟩ := hr.remove
  rw [List.append_nil] at hrep hframe
  exact ⟨_, _, by rw [Dlist.popTail, htail], hrep, hframe⟩

end Remove

/-! ## Pointers in a set -/

/-- The pointers of a node lead to nodes with `P`. -/
def Link.Within (P : α → Prop) (l : Link α) : Prop := (∀ y ∈ l.prev, P y) ∧ ∀ y ∈ l.next, P y

/-- The pointers of a header lead to nodes with `P`. -/
def Hdr.Within (P : α → Prop) (h : Hdr α) : Prop := (∀ y ∈ h.head, P y) ∧ ∀ y ∈ h.tail, P y

section Within

variable {P Q : α → Prop} {h h' : Hdr α} {links links' : α → Link α} {x : α}

omit [DecidableEq α] in
theorem Link.Within.mono {l : Link α} (hl : l.Within P) (hPQ : ∀ x, P x → Q x) : l.Within Q :=
  ⟨fun y hy => hPQ y (hl.1 y hy), fun y hy => hPQ y (hl.2 y hy)⟩

omit [DecidableEq α] in
theorem Hdr.Within.mono (hh : h.Within P) (hPQ : ∀ x, P x → Q x) : h.Within Q :=
  ⟨fun y hy => hPQ y (hh.1 y hy), fun y hy => hPQ y (hh.2 y hy)⟩

omit [DecidableEq α] in
theorem Link.within_init : (Link.init : Link α).Within P :=
  ⟨fun _ hy => (Option.not_mem_none _ hy).elim, fun _ hy => (Option.not_mem_none _ hy).elim⟩

omit [DecidableEq α] in
theorem Hdr.within_init : (Hdr.init : Hdr α).Within P :=
  ⟨fun _ hy => (Option.not_mem_none _ hy).elim, fun _ hy => (Option.not_mem_none _ hy).elim⟩

theorem within_update (hlinks : ∀ y, P y → (links y).Within P) {l : Link α} (hl : l.Within P) :
    ∀ y, P y → (update links x l y).Within P := by
  intro y hy
  by_cases he : y = x
  · subst he
    rwa [update_self]
  · rw [update_of_ne he]
    exact hlinks y hy

theorem within_setNext {o v : Option α} (hlinks : ∀ y, P y → (links y).Within P) (ho : ∀ y ∈ o, P y)
    (hv : ∀ y ∈ v, P y) : ∀ y, P y → (setNext links o v y).Within P := by
  cases o with
  | none => exact hlinks
  | some p => exact within_update hlinks ⟨(hlinks p (ho p rfl)).1, hv⟩

theorem within_setPrev {o v : Option α} (hlinks : ∀ y, P y → (links y).Within P) (ho : ∀ y ∈ o, P y)
    (hv : ∀ y ∈ v, P y) : ∀ y, P y → (setPrev links o v y).Within P := by
  cases o with
  | none => exact hlinks
  | some n => exact within_update hlinks ⟨hv, (hlinks n (ho n rfl)).2⟩

theorem append_within (hh : h.Within P) (hlinks : ∀ y, P y → (links y).Within P) (hx : P x)
    (happ : Dlist.append h links x = some (h', links')) :
    h'.Within P ∧ ∀ y, P y → (links' y).Within P := by
  have hxs : ∀ y ∈ some x, P y := fun y hy => Option.some.inj hy ▸ hx
  unfold Dlist.append insertAfter at happ
  cases htail : h.tail with
  | none =>
    rw [htail] at happ
    dsimp only at happ
    split_ifs at happ
    cases happ
    exact ⟨⟨hxs, hxs⟩, within_update hlinks Link.within_init⟩
  | some p =>
    have hp : P p := hh.2 p htail
    have hps : ∀ y ∈ some p, P y := fun y hy => Option.some.inj hy ▸ hp
    rw [htail] at happ
    cases happ
    refine ⟨⟨hh.1, ?_⟩, ?_⟩
    · rw [if_pos rfl]
      exact hxs
    · have hnew := within_update (x := x) hlinks (l := ⟨some p, (links p).next⟩) ⟨hps, (hlinks p hp).2⟩
      -- there may be a node behind the last one, if that is not the end of its list
      exact within_setNext (within_setPrev hnew (hnew x hx).2 hxs) hps hxs

theorem popHead_within (hh : h.Within P) (hlinks : ∀ y, P y → (links y).Within P)
    (hpop : Dlist.popHead h links = (some x, h', links')) :
    h.head = some x ∧ P x ∧ h'.Within P ∧ ∀ y, P y → (links' y).Within P := by
  unfold Dlist.popHead at hpop
  cases hhead : h.head with
  | none =>
    rw [hhead] at hpop
    cases hpop
  | some y =>
    rw [hhead] at hpop
    obtain ⟨hy, hrem⟩ := Prod.mk.inj hpop
    obtain rfl := Option.some.inj hy
    have hPy : P y := hh.1 y hhead
    refine ⟨rfl, hPy, ?_⟩
    rw [remove_eq] at hrem
    have hfirst := within_setNext hlinks (hlinks y hPy).1 (hlinks y hPy).2
    have hsecond := within_setPrev hfirst (hfirst y hPy).2 (hfirst y hPy).1
    cases hrem
    refine ⟨⟨?_, ?_⟩, hsecond⟩
    · rw [if_pos hhead]
      exact (hsecond y hPy).2
    · dsimp only
      split_ifs
      · exact (hsecond y hPy).1
      · exact hh.2

end Within

end Dlist
