import LykOS.Lib.Lists

/-!
# Lists in memory

`list_insert_after`, `list_append` and `list_remove` on memory words. A `list_node_t` at the address `n` is
the words `n` and `n + 8`, and a `list_t` at `list` the words `list`, `list + 8` and `list + 16`. `viewLink` and
`viewHdr` read them as in `Dlist`. When the nodes and the header do not overlap, the functions do in memory
what those of `Dlist` do (`listInsertAfter_views`, `listRemove_views`), so they append to and remove from the
list that the memory represents (`listAppend_rep`, `listRemove_rep`).
-/

namespace LykOS.ListMem

open Dlist LykOS.Lists Function List

abbrev Mem := UInt64 → UInt64

def ptr (w : UInt64) : Option Node := if h : w ≠ 0 then some ⟨w, h⟩ else none

def addr : Option Node → UInt64
  | none => 0
  | some n => n.val

@[simp] theorem addr_some (n : Node) : addr (some n) = n.val := rfl

@[simp] theorem addr_ptr (w : UInt64) : addr (ptr w) = w := by
  by_cases h : w = 0
  · simp [ptr, addr, h]
  · simp [ptr, addr, h]

@[simp] theorem ptr_addr (o : Option Node) : ptr (addr o) = o := by
  cases o with
  | none => rfl
  | some n => simp [ptr, addr, n.property]

@[simp] theorem ptr_val (n : Node) : ptr n.val = some n := ptr_addr (some n)

def viewLink (mem : Mem) (n : Node) : Link Node := ⟨ptr (mem n.val), ptr (mem (n.val + 8))⟩

def viewHdr (mem : Mem) (list : UInt64) : Hdr Node :=
  ⟨mem list, ptr (mem (list + 8)), ptr (mem (list + 16))⟩

def store (mem : Mem) (a v : UInt64) : Mem := fun b => if b = a then v else mem b

def listIsEmpty (mem : Mem) (list : UInt64) : Option Bool :=
  if decide (mem (list + 8) = 0) = decide (mem list = 0) then some (decide (mem (list + 8) = 0))
  else none

def listInsertAfter (mem : Mem) (list pos new : UInt64) : Option Mem :=
  if pos = 0 then
    if listIsEmpty mem list = some true then
      let mem := store mem (list + 8) new
      let mem := store mem (list + 16) new
      let mem := store mem new 0
      let mem := store mem (new + 8) 0
      some (store mem list (mem list + 1))
    else none
  else
    let mem := store mem new pos
    let mem := store mem (new + 8) (mem (pos + 8))
    let mem := if mem (new + 8) ≠ 0 then store mem (mem (new + 8)) new else mem
    let mem := store mem (pos + 8) new
    let mem := if mem (list + 16) = pos then store mem (list + 16) new else mem
    some (store mem list (mem list + 1))

def listAppend (mem : Mem) (list node : UInt64) : Option Mem :=
  listInsertAfter mem list (mem (list + 16)) node

def listRemove (mem : Mem) (list node : UInt64) : Mem :=
  let mem := if mem node ≠ 0 then store mem (mem node + 8) (mem (node + 8)) else mem
  let mem := if mem (node + 8) ≠ 0 then store mem (mem (node + 8)) (mem node) else mem
  let mem := if mem (list + 8) = node then store mem (list + 8) (mem (node + 8)) else mem
  let mem := if mem (list + 16) = node then store mem (list + 16) (mem node) else mem
  store mem list (mem list - 1)

/-- The words of different nodes with `S` are different, and are not those of the header. -/
structure Apart (list : UInt64) (S : Node → Prop) : Prop where
  nodes : ∀ a b, S a → S b → a.val ≠ b.val + 8
  length : ∀ a, S a → list ≠ a.val ∧ list ≠ a.val + 8
  head : ∀ a, S a → list + 8 ≠ a.val ∧ list + 8 ≠ a.val + 8
  tail : ∀ a, S a → list + 16 ≠ a.val ∧ list + 16 ≠ a.val + 8

/-- The memory has the header `h` at `list`, and the nodes with `S` have the links `links`. -/
structure Views (mem : Mem) (list : UInt64) (S : Node → Prop) (h : Hdr Node) (links : Node → Link Node) :
    Prop where
  hdr : viewHdr mem list = h
  link : ∀ n, S n → viewLink mem n = links n

section

variable {mem : Mem} {list : UInt64} {S : Node → Prop} {h : Hdr Node} {links : Node → Link Node}
  {l a b : List Node} {n x : Node}

/-! ## Words -/

theorem Views.prev (hv : Views mem list S h links) (hn : S n) : mem n.val = addr (links n).prev := by
  rw [← hv.link n hn]
  exact (addr_ptr _).symm

theorem Views.next (hv : Views mem list S h links) (hn : S n) : mem (n.val + 8) = addr (links n).next := by
  rw [← hv.link n hn]
  exact (addr_ptr _).symm

theorem Views.head (hv : Views mem list S h links) : mem (list + 8) = addr h.head := by
  rw [← hv.hdr]
  exact (addr_ptr _).symm

theorem Views.tail (hv : Views mem list S h links) : mem (list + 16) = addr h.tail := by
  rw [← hv.hdr]
  exact (addr_ptr _).symm

theorem Views.isEmpty (hv : Views mem list S h links) : listIsEmpty mem list = Dlist.isEmpty h := by
  have hlen : mem list = h.length := congrArg Hdr.length hv.hdr
  have hnone : decide (addr h.head = 0) = h.head.isNone := by
    rw [← ptr_addr h.head, addr_ptr]
    by_cases hz : addr h.head = 0 <;> simp [ptr, hz]
  rw [listIsEmpty, hv.head, hlen, hnone, Dlist.isEmpty]

theorem header_ne (list : UInt64) : list + 8 ≠ list ∧ list + 16 ≠ list ∧ list + 16 ≠ list + 8 := by
  refine ⟨?_, ?_, ?_⟩ <;> grind

theorem add_eight_ne {n m : Node} (h : m ≠ n) : m.val + 8 ≠ n.val + 8 := fun heq =>
  h (Subtype.ext (by grind))

theorem addr_inj {o : Option Node} : addr o = x.val ↔ o = some x := by
  refine ⟨fun heq => ?_, fun heq => heq ▸ rfl⟩
  rw [← ptr_addr o, heq, ptr_val]

/-! ## Stores -/

theorem Views.setLength (hv : Views mem list S h links) (hapart : Apart list S) (f : UInt64 → UInt64) :
    Views (store mem list (f (mem list))) list S { h with length := f h.length } links := by
  obtain ⟨h8, h16, -⟩ := header_ne list
  refine ⟨?_, fun m hm => ?_⟩
  · rw [← hv.hdr]
    simp [viewHdr, store, h8, h16]
  · obtain ⟨h0, h8⟩ := hapart.length m hm
    rw [← hv.link m hm]
    simp [viewLink, store, h0.symm, h8.symm]

theorem Views.setHead (hv : Views mem list S h links) (hapart : Apart list S) (o : Option Node) :
    Views (store mem (list + 8) (addr o)) list S { h with head := o } links := by
  obtain ⟨h8, -, h816⟩ := header_ne list
  refine ⟨?_, fun m hm => ?_⟩
  · rw [← hv.hdr]
    simp [viewHdr, store, h8.symm, h816]
  · obtain ⟨h0, h8⟩ := hapart.head m hm
    rw [← hv.link m hm]
    simp [viewLink, store, h0.symm, h8.symm]

theorem Views.setTail (hv : Views mem list S h links) (hapart : Apart list S) (o : Option Node) :
    Views (store mem (list + 16) (addr o)) list S { h with tail := o } links := by
  obtain ⟨-, h16, h816⟩ := header_ne list
  refine ⟨?_, fun m hm => ?_⟩
  · rw [← hv.hdr]
    simp [viewHdr, store, h16.symm, h816.symm]
  · obtain ⟨h0, h8⟩ := hapart.tail m hm
    rw [← hv.link m hm]
    simp [viewLink, store, h0.symm, h8.symm]

theorem Views.replaceHead (hv : Views mem list S h links) (hapart : Apart list S) (p : Node) {v : UInt64}
    {o : Option Node} (ho : v = addr o) :
    Views (if mem (list + 8) = p.val then store mem (list + 8) v else mem) list S
      { h with head := if h.head = some p then o else h.head } links := by
  rw [hv.head, ho]
  simp only [addr_inj]
  split_ifs
  · exact hv.setHead hapart o
  · exact hv

theorem Views.replaceTail (hv : Views mem list S h links) (hapart : Apart list S) (p : Node) {v : UInt64}
    {o : Option Node} (ho : v = addr o) :
    Views (if mem (list + 16) = p.val then store mem (list + 16) v else mem) list S
      { h with tail := if h.tail = some p then o else h.tail } links := by
  rw [hv.tail, ho]
  simp only [addr_inj]
  split_ifs
  · exact hv.setTail hapart o
  · exact hv

theorem Views.setPrev (hv : Views mem list S h links) (hapart : Apart list S) (hn : S n) (o : Option Node) :
    Views (store mem n.val (addr o)) list S h (update links n ⟨o, (links n).next⟩) := by
  refine ⟨?_, fun m hm => ?_⟩
  · rw [← hv.hdr]
    simp [viewHdr, store, (hapart.length n hn).1, (hapart.head n hn).1, (hapart.tail n hn).1]
  · have h8 : m.val + 8 ≠ n.val := (hapart.nodes n m hn hm).symm
    by_cases hmn : m = n
    · subst hmn
      rw [update_self, ← hv.link m hm]
      simp [viewLink, store, h8]
    · have hne : m.val ≠ n.val := fun heq => hmn (Subtype.ext heq)
      rw [update_of_ne hmn, ← hv.link m hm]
      simp [viewLink, store, h8, hne]

theorem Views.setNext (hv : Views mem list S h links) (hapart : Apart list S) (hn : S n) (o : Option Node) :
    Views (store mem (n.val + 8) (addr o)) list S h (update links n ⟨(links n).prev, o⟩) := by
  refine ⟨?_, fun m hm => ?_⟩
  · rw [← hv.hdr]
    simp [viewHdr, store, (hapart.length n hn).2, (hapart.head n hn).2, (hapart.tail n hn).2]
  · have h0 : m.val ≠ n.val + 8 := hapart.nodes m n hm hn
    by_cases hmn : m = n
    · subst hmn
      rw [update_self, ← hv.link m hm]
      simp [viewLink, store, h0]
    · rw [update_of_ne hmn, ← hv.link m hm]
      simp [viewLink, store, h0, add_eight_ne hmn]

/-- The `prev` of the node that `x` has as its next one. -/
theorem Views.setPrevOfNext (hv : Views mem list S h links) (hapart : Apart list S) (hx : S x)
    (hnext : ∀ r ∈ (links x).next, S r) {v : UInt64} {o : Option Node} (ho : v = addr o) :
    Views (if mem (x.val + 8) ≠ 0 then store mem (mem (x.val + 8)) v else mem) list S h
      (Dlist.setPrev links (links x).next o) := by
  rw [hv.next hx, ho]
  cases hr : (links x).next with
  | none => exact hv
  | some r =>
    rw [addr_some, if_pos r.property]
    exact hv.setPrev hapart (hnext r hr) o

/-- The `next` of the node that `x` has as its previous one. -/
theorem Views.setNextOfPrev (hv : Views mem list S h links) (hapart : Apart list S) (hx : S x)
    (hprev : ∀ p ∈ (links x).prev, S p) {v : UInt64} {o : Option Node} (ho : v = addr o) :
    Views (if mem x.val ≠ 0 then store mem (mem x.val + 8) v else mem) list S h
      (Dlist.setNext links (links x).prev o) := by
  rw [hv.prev hx, ho]
  cases hp : (links x).prev with
  | none => exact hv
  | some p =>
    rw [addr_some, if_pos p.property]
    exact hv.setNext hapart (hprev p hp) o

/-! ## The functions -/

theorem listInsertAfter_views (hv : Views mem list S h links) (hapart : Apart list S) (hx : S x)
    {pos : Option Node} (hpos : ∀ p ∈ pos, S p ∧ ∀ r ∈ (links p).next, S r) {h' : Hdr Node}
    {links' : Node → Link Node} (hins : Dlist.insertAfter h links pos x = some (h', links')) :
    ∃ mem', listInsertAfter mem list (addr pos) x.val = some mem' ∧ Views mem' list S h' links' := by
  cases pos with
  | none =>
    rw [Dlist.insertAfter] at hins
    split_ifs at hins with hempty
    cases hins
    have hv' := (((hv.setHead hapart (some x)).setTail hapart (some x)).setPrev hapart hx none).setNext hapart
      hx none
    rw [update_idem, update_self] at hv'
    rw [listInsertAfter, if_pos (show addr none = 0 from rfl), if_pos (hv.isEmpty.trans hempty)]
    exact ⟨_, rfl, hv'.setLength hapart (· + 1)⟩
  | some p =>
    obtain ⟨hp, hnext⟩ := hpos p rfl
    cases hins
    rw [listInsertAfter, if_neg (show addr (some p) ≠ 0 from p.property)]
    have hv₁ := hv.setPrev hapart hx (some p)
    have hkeep : (update links x ⟨some p, (links x).next⟩ p).next = (links p).next := by
      by_cases hpx : p = x
      · rw [hpx, update_self]
      · rw [update_of_ne hpx]
    have hv₂ := hv₁.setNext hapart hx (update links x ⟨some p, (links x).next⟩ p).next
    rw [← hv₁.next hp, update_idem, update_self, hkeep] at hv₂
    have hnext' : ∀ r ∈ (update links x ⟨some p, (links p).next⟩ x).next, S r := by rwa [update_self]
    have hv₃ := (hv₂.setPrevOfNext hapart hx hnext' (v := x.val) (o := some x) rfl).setNext hapart hp (some x)
    exact ⟨_, rfl, (hv₃.replaceTail hapart p (v := x.val) (o := some x) rfl).setLength hapart (· + 1)⟩

theorem listRemove_views (hv : Views mem list S h links) (hapart : Apart list S) (hx : S x)
    (hprev : ∀ p ∈ (links x).prev, S p) (hnext : ∀ r ∈ (links x).next, S r) :
    Views (listRemove mem list x.val) list S (remove h links x).1 (remove h links x).2 := by
  have hkeep : (Dlist.setNext links (links x).prev (links x).next x).next = (links x).next := by
    by_cases hp : (links x).prev = some x
    · rw [hp, Dlist.setNext, update_self]
    · rw [setNext_of_ne hp]
  have hv₁ := hv.setNextOfPrev hapart hx hprev (hv.next hx)
  have hv₂ := hv₁.setPrevOfNext hapart hx (by rwa [hkeep]) (hv₁.prev hx)
  have hv₃ := hv₂.replaceHead hapart x (hv₂.next hx)
  exact (hv₃.replaceTail hapart x (hv₃.prev hx)).setLength hapart (· - 1)

theorem rep_of_views (hr : Rep h links l) (hv : Views mem list S h links) (hl : ∀ n ∈ l, S n) :
    Rep (viewHdr mem list) (viewLink mem) l := by
  rw [hv.hdr]
  exact ⟨hr.head, hr.tail, hr.length, hr.linked.congr fun n hn => hv.link n (hl n hn)⟩

theorem listAppend_rep (hr : Rep (viewHdr mem list) (viewLink mem) l) (hapart : Apart list S)
    (hl : ∀ n ∈ l, S n) (hx : S x) (hxl : x ∉ l) :
    ∃ mem', listAppend mem list x.val = some mem' ∧
      Rep (viewHdr mem' list) (viewLink mem') (l ++ [x]) := by
  have hv : Views mem list S (viewHdr mem list) (viewLink mem) := ⟨rfl, fun _ _ => rfl⟩
  obtain ⟨h', links', happ, hrep, -⟩ := hr.append hxl (length_succ_lt hr.linked.nodup hxl)
  have hpos : ∀ p ∈ (viewHdr mem list).tail, S p ∧ ∀ r ∈ (viewLink mem p).next, S r := by
    intro p hp
    have hpl : p ∈ l := mem_of_getLast? (hr.tail.symm.trans hp)
    exact ⟨hl p hpl, fun r hnext => hl r (hr.linked.next_mem hpl hnext)⟩
  obtain ⟨mem', heq, hv'⟩ := listInsertAfter_views hv hapart hx hpos happ
  rw [← hv.tail] at heq
  refine ⟨mem', heq, rep_of_views hrep hv' fun n hn => ?_⟩
  rcases mem_append.mp hn with hn | hn
  · exact hl n hn
  · exact mem_singleton.mp hn ▸ hx

theorem listRemove_rep (hr : Rep (viewHdr mem list) (viewLink mem) (a ++ x :: b)) (hapart : Apart list S)
    (hl : ∀ n ∈ a ++ x :: b, S n) :
    Rep (viewHdr (listRemove mem list x.val) list) (viewLink (listRemove mem list x.val)) (a ++ b) := by
  have hv : Views mem list S (viewHdr mem list) (viewLink mem) := ⟨rfl, fun _ _ => rfl⟩
  have hx : viewLink mem x = ⟨a.getLast?, b.head?⟩ := by
    rw [(linked_append.mp hr.linked).2.1, Option.or_none]
  refine rep_of_views hr.remove.1 (listRemove_views hv hapart (hl x (by simp)) ?_ ?_) fun n hn => ?_
  · rw [hx]
    exact fun p hp => hl p (mem_append_left _ (mem_of_getLast? hp))
  · rw [hx]
    exact fun r hr => hl r (mem_append_right _ (mem_cons_of_mem _ (mem_of_mem_head? hr)))
  · rcases mem_append.mp hn with hn | hn
    · exact hl n (mem_append_left _ hn)
    · exact hl n (mem_append_right _ (mem_cons_of_mem _ hn))

end

end LykOS.ListMem
