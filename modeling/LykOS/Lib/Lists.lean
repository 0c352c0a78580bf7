import LykOS.Lib.Dlist
import LykOS.Lib.Run
import Mathlib.Data.Fintype.Card

/-!
# Lists over a common pool of nodes

The functions of `list.c` called on any number of lists whose nodes come from one pool of addresses.
`seqCall` is what a call is for: it inserts into, or takes from, one of a family of sequences. A call is
`Legal` when it inserts a node that is in no list, at a node of the given list, or removes a node of the
given list; `NULL` is a position in the empty list only.

Every run of legal calls from empty lists has a result, and each list then is its sequence, whatever the
links of the nodes were at the start (`list_run_refines`).
-/

namespace LykOS.Lists

open Dlist Run Function List

/-- The address of a `list_node_t`, which is not `NULL`. -/
abbrev Node := { p : UInt64 // p ≠ 0 }

instance : LawfulBEq Node := inferInstance

theorem length_succ_lt {l : List Node} {x : Node} (hnd : l.Nodup) (hx : x ∉ l) :
    l.length + 1 < 2 ^ 64 := by
  have hinj : Injective fun n : Node => n.val.toNat :=
    fun n m h => Subtype.ext (UInt64.toNat_inj.mp h)
  have hmem : ∀ n ∈ (x :: l).map fun n : Node => n.val.toNat, n ∈ List.range' 1 (2 ^ 64 - 1) := by
    intro n hn
    obtain ⟨m, -, rfl⟩ := mem_map.mp hn
    have hpos : m.val.toNat ≠ 0 := fun h => m.property (UInt64.toNat_inj.mp h)
    have hlt := m.val.toNat_lt
    rw [mem_range'_1]
    omega
  have hle := ((nodup_cons.mpr ⟨hx, hnd⟩).map hinj |>.subperm hmem).length_le
  rw [length_map, length_cons, length_range'] at hle
  omega

variable {ι : Type*} [DecidableEq ι]

/-- The headers of the lists and the links of the nodes. -/
structure State (ι : Type*) where
  hdr : ι → Hdr Node
  links : Node → Link Node

/-- A call of a function of `list.c`. -/
inductive Call (ι : Type*) where
  | insertAfter (list : ι) (pos : Option Node) (new : Node)
  | insertBefore (list : ι) (pos : Option Node) (new : Node)
  | append (list : ι) (node : Node)
  | prepend (list : ι) (node : Node)
  | remove (list : ι) (node : Node)
  | popHead (list : ι)
  | popTail (list : ι)

def Call.list : Call ι → ι
  | .insertAfter i _ _ | .insertBefore i _ _ | .append i _ | .prepend i _ | .remove i _
  | .popHead i | .popTail i => i

/-- The list `i` has a new header, and the nodes have new links. -/
def State.set (s : State ι) (i : ι) (r : Hdr Node × (Node → Link Node)) : State ι :=
  ⟨Function.update s.hdr i r.1, r.2⟩

/-- What a call returns, if anything, and leaves behind. It has no result where an assertion fails. -/
def call (s : State ι) : Call ι → Option (Option Node × State ι)
  | .insertAfter i pos x => (insertAfter (s.hdr i) s.links pos x).map fun r => (none, s.set i r)
  | .insertBefore i pos x => (insertBefore (s.hdr i) s.links pos x).map fun r => (none, s.set i r)
  | .append i x => (append (s.hdr i) s.links x).map fun r => (none, s.set i r)
  | .prepend i x => (prepend (s.hdr i) s.links x).map fun r => (none, s.set i r)
  | .remove i x => some (none, s.set i (remove (s.hdr i) s.links x))
  | .popHead i =>
    let (node, r) := popHead (s.hdr i) s.links
    some (node, s.set i r)
  | .popTail i =>
    let (node, r) := popTail (s.hdr i) s.links
    some (node, s.set i r)

def step (s : State ι) (c : Call ι) : Option (State ι) := (call s c).map Prod.snd

/-! ## Sequences -/

/-- The sequence with `x` behind `pos`. -/
def seqInsertAfter (l : List Node) (pos : Option Node) (x : Node) : List Node :=
  match pos with
  | none => [x]
  | some p => l.insertIdx (l.idxOf p + 1) x

/-- The sequence with `x` in front of `pos`. -/
def seqInsertBefore (l : List Node) (pos : Option Node) (x : Node) : List Node :=
  match pos with
  | none => [x]
  | some p => l.insertIdx (l.idxOf p) x

/-- The operation on sequences that a call stands for. -/
def seqCall (t : ι → List Node) : Call ι → Option Node × (ι → List Node)
  | .insertAfter i pos x => (none, Function.update t i (seqInsertAfter (t i) pos x))
  | .insertBefore i pos x => (none, Function.update t i (seqInsertBefore (t i) pos x))
  | .append i x => (none, Function.update t i (t i ++ [x]))
  | .prepend i x => (none, Function.update t i (x :: t i))
  | .remove i x => (none, Function.update t i ((t i).erase x))
  | .popHead i => ((t i).head?, Function.update t i (t i).tail)
  | .popTail i => ((t i).getLast?, Function.update t i (t i).dropLast)

def seqStep (t : ι → List Node) (c : Call ι) : Option (ι → List Node) := some (seqCall t c).2

/-- A position in a sequence: one of its nodes, or `NULL` if there are none. -/
def Position (l : List Node) : Option Node → Prop
  | none => l = []
  | some p => p ∈ l

/-- The call inserts a node that is in no list, or removes one of the given list. -/
def Legal (t : ι → List Node) : Call ι → Prop
  | .insertAfter i pos x | .insertBefore i pos x => (∀ j, x ∉ t j) ∧ Position (t i) pos
  | .append _ x | .prepend _ x => ∀ j, x ∉ t j
  | .remove i x => x ∈ t i
  | .popHead _ | .popTail _ => True

instance (l : List Node) (pos : Option Node) : Decidable (Position l pos) :=
  match pos with
  | none => inferInstanceAs (Decidable (l = []))
  | some p => inferInstanceAs (Decidable (p ∈ l))

instance [Fintype ι] (t : ι → List Node) (c : Call ι) : Decidable (Legal t c) :=
  match c with
  | .insertAfter i pos x | .insertBefore i pos x =>
    inferInstanceAs (Decidable ((∀ j, x ∉ t j) ∧ Position (t i) pos))
  | .append _ x | .prepend _ x => inferInstanceAs (Decidable (∀ j, x ∉ t j))
  | .remove i x => inferInstanceAs (Decidable (x ∈ t i))
  | .popHead _ | .popTail _ => inferInstanceAs (Decidable True)

section Sequences

variable {a b : List Node} {p : Node} (x : Node)

theorem idxOf_split (hp : p ∉ a) : (a ++ p :: b).idxOf p = a.length := by
  rw [idxOf_append_of_notMem hp, idxOf_cons_self, Nat.add_zero]

theorem seqInsertAfter_split (hp : p ∉ a) :
    seqInsertAfter (a ++ p :: b) (some p) x = a ++ p :: x :: b := by
  rw [seqInsertAfter, idxOf_split hp]
  clear hp
  induction a with
  | nil => rfl
  | cons y a ih => simp only [cons_append, length_cons, insertIdx_succ_cons, ih]

theorem seqInsertBefore_split (hp : p ∉ a) :
    seqInsertBefore (a ++ p :: b) (some p) x = a ++ x :: p :: b := by
  rw [seqInsertBefore, idxOf_split hp]
  clear hp
  induction a with
  | nil => rfl
  | cons y a ih => simp only [cons_append, length_cons, insertIdx_succ_cons, ih]

theorem erase_split (hp : p ∉ a) : (a ++ p :: b).erase p = a ++ b := by
  rw [erase_append_right _ hp, erase_cons_head]

end Sequences

/-! ## Refinement -/

/-- Each list is its sequence, as it can be seen: read forward and backward, by the fields of its header
and by `list_is_empty`. -/
structure Shows (s : State ι) (t : ι → List Node) : Prop where
  forward : ∀ i n, (t i).length ≤ n → foreach (fun x => (s.links x).next) n (s.hdr i).head = some (t i)
  backward : ∀ i n, (t i).length ≤ n →
    foreach (fun x => (s.links x).prev) n (s.hdr i).tail = some (t i).reverse
  head : ∀ i, (s.hdr i).head = (t i).head?
  tail : ∀ i, (s.hdr i).tail = (t i).getLast?
  length : ∀ i, (s.hdr i).length.toNat = (t i).length
  isEmpty : ∀ i, isEmpty (s.hdr i) = some (t i).isEmpty

/-- Each list represents its sequence, and no node is in two of them. -/
structure Refines (s : State ι) (t : ι → List Node) : Prop where
  rep : ∀ i, Rep (s.hdr i) s.links (t i)
  apart : ∀ i j x, x ∈ t i → x ∈ t j → i = j

/-- A call on the list `i` leaves the other lists alone, and the nodes that are in no list after it. -/
structure Frame (s s' : State ι) (t t' : ι → List Node) (i : ι) : Prop where
  hdr : ∀ j, j ≠ i → s'.hdr j = s.hdr j
  links : ∀ j, j ≠ i → ∀ x ∈ t j, s'.links x = s.links x
  free : ∀ x, (∀ j, x ∉ t' j) → s'.links x = s.links x

variable {s : State ι} {t : ι → List Node}

omit [DecidableEq ι] in
theorem Refines.shows (h : Refines s t) : Shows s t where
  forward i _ hn := (h.rep i).forward hn
  backward i _ hn := (h.rep i).backward hn
  head i := (h.rep i).head
  tail i := (h.rep i).tail
  length i := (h.rep i).length
  isEmpty i := (h.rep i).isEmpty

omit [DecidableEq ι] in
theorem refines_init (links : Node → Link Node) : Refines ⟨fun _ : ι => .init, links⟩ fun _ => [] :=
  ⟨fun _ => Rep.init links, fun _ _ _ hx => nomatch hx⟩

variable {i : ι} {x : Node} {r : Hdr Node × (Node → Link Node)} {l : List Node}

omit [DecidableEq ι] in
theorem Refines.split (h : Refines s t) {p : Node} (hp : p ∈ t i) :
    ∃ a b, t i = a ++ p :: b ∧ p ∉ a := by
  obtain ⟨a, b, hsplit⟩ := append_of_mem hp
  have hnd := (h.rep i).linked.nodup
  rw [hsplit] at hnd
  exact ⟨a, b, hsplit, fun hm => (nodup_append.mp hnd).2.2 p hm p mem_cons_self rfl⟩

theorem Refines.set (h : Refines s t) (hrep : Rep r.1 r.2 l) (hframe : ∀ y, y ∉ l → r.2 y = s.links y)
    (hown : ∀ x ∈ l, ∀ j, x ∈ t j → j = i) :
    Refines (s.set i r) (update t i l) ∧ Frame s (s.set i r) t (update t i l) i := by
  have hother : ∀ j, j ≠ i → ∀ x ∈ t j, r.2 x = s.links x :=
    fun j hj x hx => hframe x fun hm => hj (hown x hm j hx)
  refine ⟨⟨fun j => ?_, fun j k x hj hk => ?_⟩, fun j hj => ?_, hother, fun x hx => ?_⟩
  · by_cases hji : j = i
    · subst hji
      simpa only [State.set, update_self] using hrep
    · simpa only [State.set, update_of_ne hji] using (h.rep j).congr (hother j hji)
  · by_cases hji : j = i
    · by_cases hki : k = i
      · rw [hji, hki]
      · subst hji
        rw [update_self] at hj
        rw [update_of_ne hki] at hk
        exact (hown x hj k hk).symm
    · rw [update_of_ne hji] at hj
      by_cases hki : k = i
      · subst hki
        rw [update_self] at hk
        exact hown x hk j hj
      · rw [update_of_ne hki] at hk
        exact h.apart j k x hj hk
  · exact update_of_ne hj _ _
  · refine hframe x fun hm => hx i ?_
    rwa [update_self]

theorem Refines.set_insert (h : Refines s t) (hx : ∀ j, x ∉ t j) (hl : ∀ y, y ∈ l ↔ y = x ∨ y ∈ t i)
    (hrep : Rep r.1 r.2 l) (hframe : ∀ y, y ∉ t i → y ≠ x → r.2 y = s.links y) :
    Refines (s.set i r) (update t i l) ∧ Frame s (s.set i r) t (update t i l) i := by
  refine h.set hrep (fun y hy => ?_) fun y hy j hj => ?_
  · rw [hl, not_or] at hy
    exact hframe y hy.2 hy.1
  · rcases (hl y).mp hy with rfl | hy
    · exact absurd hj (hx j)
    · exact h.apart j i y hj hy

theorem Refines.set_sublist (h : Refines s t) (hl : ∀ y ∈ l, y ∈ t i) (hrep : Rep r.1 r.2 l)
    (hframe : ∀ y, y ∉ l → r.2 y = s.links y) :
    Refines (s.set i r) (update t i l) ∧ Frame s (s.set i r) t (update t i l) i :=
  h.set hrep hframe fun y hy j hj => h.apart j i y hj (hl y hy)

/-- What a legal call does: it has a result, which is that of the operation on sequences. -/
def Simulates (s : State ι) (t : ι → List Node) (c : Call ι) : Prop :=
  ∃ s', call s c = some ((seqCall t c).1, s') ∧ Refines s' (seqCall t c).2 ∧
    Frame s s' t (seqCall t c).2 c.list

theorem Refines.insertAfter (h : Refines s t) {pos : Option Node} (hx : ∀ j, x ∉ t j)
    (hpos : Position (t i) pos) : Simulates s t (.insertAfter i pos x) := by
  have hrep := h.rep i
  cases pos with
  | none =>
    have hnil : t i = [] := hpos
    rw [hnil] at hrep
    obtain ⟨h', links', hcall, hrep', hframe⟩ := hrep.insertAfter_nil x
    refine ⟨s.set i (h', links'), by rw [call, hcall]; rfl, h.set_insert hx (fun y => ?_) hrep' ?_⟩
    · simp [hnil, seqInsertAfter]
    · exact fun y _ hy => hframe y hy
  | some p =>
    obtain ⟨a, b, hsplit, hpa⟩ := h.split hpos
    have hxi := hx i
    have hlen := length_succ_lt hrep.linked.nodup hxi
    rw [hsplit] at hrep hxi hlen
    obtain ⟨h', links', hcall, hrep', hframe⟩ := hrep.insertAfter hxi hlen
    rw [← seqInsertAfter_split x hpa, ← hsplit] at hrep'
    rw [← hsplit] at hframe
    refine ⟨s.set i (h', links'), by rw [call, hcall]; rfl, h.set_insert hx (fun y => ?_) hrep' hframe⟩
    rw [hsplit, seqInsertAfter_split x hpa]
    simp only [mem_append, mem_cons]
    tauto

theorem Refines.insertBefore (h : Refines s t) {pos : Option Node} (hx : ∀ j, x ∉ t j)
    (hpos : Position (t i) pos) : Simulates s t (.insertBefore i pos x) := by
  have hrep := h.rep i
  cases pos with
  | none =>
    -- without a position both calls are the same
    exact h.insertAfter hx hpos
  | some p =>
    obtain ⟨a, b, hsplit, hpa⟩ := h.split hpos
    have hxi := hx i
    have hlen := length_succ_lt hrep.linked.nodup hxi
    rw [hsplit] at hrep hxi hlen
    obtain ⟨h', links', hcall, hrep', hframe⟩ := hrep.insertBefore hxi hlen
    rw [← seqInsertBefore_split x hpa, ← hsplit] at hrep'
    rw [← hsplit] at hframe
    refine ⟨s.set i (h', links'), by rw [call, hcall]; rfl, h.set_insert hx (fun y => ?_) hrep' hframe⟩
    rw [hsplit, seqInsertBefore_split x hpa]
    simp only [mem_append, mem_cons]
    tauto

theorem Refines.append (h : Refines s t) (i : ι) (hx : ∀ j, x ∉ t j) :
    Simulates s t (.append i x) := by
  have hlen := length_succ_lt (h.rep i).linked.nodup (hx i)
  obtain ⟨h', links', hcall, hrep', hframe⟩ := (h.rep i).append (hx i) hlen
  refine ⟨s.set i (h', links'), by rw [call, hcall]; rfl, h.set_insert hx (fun y => ?_) hrep' hframe⟩
  rw [mem_append, mem_singleton, or_comm]

theorem Refines.prepend (h : Refines s t) (i : ι) (hx : ∀ j, x ∉ t j) :
    Simulates s t (.prepend i x) := by
  have hlen := length_succ_lt (h.rep i).linked.nodup (hx i)
  obtain ⟨h', links', hcall, hrep', hframe⟩ := (h.rep i).prepend (hx i) hlen
  exact ⟨s.set i (h', links'), by rw [call, hcall]; rfl,
    h.set_insert hx (fun y => mem_cons) hrep' hframe⟩

theorem Refines.remove (h : Refines s t) (hx : x ∈ t i) : Simulates s t (.remove i x) := by
  have hrep := h.rep i
  obtain ⟨a, b, hsplit, hxa⟩ := h.split hx
  rw [hsplit] at hrep
  obtain ⟨hrep', hframe⟩ := hrep.remove
  rw [← erase_split hxa, ← hsplit] at hrep' hframe
  exact ⟨_, rfl, h.set_sublist (fun y hy => mem_of_mem_erase hy) hrep' hframe⟩

theorem Refines.popHead (h : Refines s t) (i : ι) : Simulates s t (.popHead i) := by
  have hrep := h.rep i
  cases hl : t i with
  | nil =>
    have hhead : (s.hdr i).head = none := by rw [hrep.head, hl]; rfl
    refine ⟨s.set i (s.hdr i, s.links), ?_, h.set_sublist (fun y hy => mem_of_mem_tail hy) ?_ ?_⟩
    · simp only [call, Dlist.popHead, hhead, seqCall, hl, head?_nil]
    · simpa only [hl, tail_nil] using hrep
    · exact fun y _ => rfl
  | cons x l =>
    rw [hl] at hrep
    obtain ⟨h', links', hcall, hrep', hframe⟩ := hrep.popHead
    refine ⟨s.set i (h', links'), ?_, h.set_sublist (fun y hy => mem_of_mem_tail hy) ?_ ?_⟩
    · simp only [call, hcall, seqCall, hl, head?_cons]
    · simpa only [hl, tail_cons] using hrep'
    · simpa only [hl, tail_cons] using hframe

theorem Refines.popTail (h : Refines s t) (i : ι) : Simulates s t (.popTail i) := by
  have hrep := h.rep i
  rcases eq_nil_or_concat (t i) with hl | ⟨l, x, hl⟩
  · have htail : (s.hdr i).tail = none := by rw [hrep.tail, hl]; rfl
    refine ⟨s.set i (s.hdr i, s.links), ?_,
      h.set_sublist (fun y hy => mem_of_mem_dropLast hy) ?_ ?_⟩
    · simp only [call, Dlist.popTail, htail, seqCall, hl, getLast?_nil]
    · simpa only [hl, dropLast_nil] using hrep
    · exact fun y _ => rfl
  · rw [concat_eq_append] at hl
    rw [hl] at hrep
    obtain ⟨h', links', hcall, hrep', hframe⟩ := hrep.popTail
    refine ⟨s.set i (h', links'), ?_, h.set_sublist (fun y hy => mem_of_mem_dropLast hy) ?_ ?_⟩
    · simp only [call, hcall, seqCall, hl, getLast?_concat]
    · simpa only [hl, dropLast_concat] using hrep'
    · simpa only [hl, dropLast_concat] using hframe

theorem Refines.call (h : Refines s t) {c : Call ι} (hc : Legal t c) : Simulates s t c := by
  cases c with
  | insertAfter i pos x => exact h.insertAfter hc.1 hc.2
  | insertBefore i pos x => exact h.insertBefore hc.1 hc.2
  | append i x => exact h.append i hc
  | prepend i x => exact h.prepend i hc
  | remove i x => exact h.remove hc
  | popHead i => exact h.popHead i
  | popTail i => exact h.popTail i

theorem Refines.run (h : Refines s t) {calls : List (Call ι)} (hc : Meets seqStep Legal t calls) :
    ∃ s' t', run step s calls = some s' ∧ run seqStep t calls = some t' ∧ Refines s' t' := by
  induction calls generalizing s t with
  | nil => exact ⟨s, t, rfl, rfl, h⟩
  | cons c calls ih =>
    obtain ⟨s₁, hcall, h₁, -⟩ := h.call hc.1
    obtain ⟨s', t', hs', ht', h'⟩ := ih h₁ (hc.2 _ rfl)
    refine ⟨s', t', run_cons_eq_some.mpr ⟨s₁, ?_, hs'⟩, run_cons_eq_some.mpr ⟨_, rfl, ht'⟩, h'⟩
    rw [step, hcall]
    rfl

/-- The lists of `list.c` are sequences: after any run of legal calls each list, read forward or
backward, is the sequence that the operations give, and so are its head, tail, length and emptiness.
One more legal call has a result, returns what the operation returns, and touches no other list and no
node that is in no list after it. -/
theorem list_run_refines (links : Node → Link Node) (calls : List (Call ι))
    (hc : Meets seqStep Legal (fun _ => []) calls) :
    ∃ s t, run step ⟨fun _ => .init, links⟩ calls = some s ∧ run seqStep (fun _ => []) calls = some t ∧
      Shows s t ∧ ∀ c, Legal t c → ∃ s', call s c = some ((seqCall t c).1, s') ∧
        Shows s' (seqCall t c).2 ∧ Frame s s' t (seqCall t c).2 c.list := by
  obtain ⟨s, t, hs, ht, h⟩ := (refines_init links).run hc
  refine ⟨s, t, hs, ht, h.shows, fun c hlegal => ?_⟩
  obtain ⟨s', hcall, h', hframe⟩ := h.call hlegal
  exact ⟨s', hcall, h'.shows, hframe⟩

def node : Fin 4 → Node
  | 0 => ⟨0x10, by decide⟩
  | 1 => ⟨0x20, by decide⟩
  | 2 => ⟨0x30, by decide⟩
  | 3 => ⟨0x40, by decide⟩

def sampleCalls : List (Call Bool) :=
  [.insertAfter false none (node 0), .append false (node 1), .insertBefore false (some (node 1)) (node 2),
    .popTail false, .prepend true (node 1), .insertAfter false (some (node 0)) (node 3),
    .remove false (node 0), .insertBefore true (some (node 1)) (node 0), .popHead false]

theorem list_run_refines_sample :
    ∃ s t, run step ⟨fun _ => .init, fun _ => ⟨some (node 0), some (node 0)⟩⟩ sampleCalls = some s ∧
      run seqStep (fun _ => []) sampleCalls = some t ∧ Shows s t ∧
      (t false, t true) = ([node 2], [node 0, node 1]) := by
  obtain ⟨s, t, hs, ht, hshows, -⟩ :=
    list_run_refines (fun _ => ⟨some (node 0), some (node 0)⟩) sampleCalls (by decide)
  refine ⟨s, t, hs, ht, hshows, ?_⟩
  cases ht
  rfl

end LykOS.Lists
