import LykOS.Lib.Dlist
import LykOS.Sys.Sockets.Unix

/-!
# Connections of unix sockets

`create_socket`, `connect`, `listen` and `accept` of `sys/sockets/unix.c`, with the accept queues as
intrusive lists: a socket has one node, which `connect` appends to the queue of its target. Each call is one
step. A call that follows a `NULL` pointer or fails an assertion has no result, and neither has a socket
that connects to itself, as it waits for its own lock.

`Queues w L`: the accept queue of each socket is the list `L` says, and no socket is on two of them. The
calls keep that as long as `connect` is not made by a socket that is on a queue (`connect_queues`).
-/

namespace LykOS.Sockets

open Vfs Tmpfs Dlist Function List
open Option hiding bind guard

def econnrefused : ℤ := 23

/-- More sockets than an address space of 64 bits has room for: one takes 96 bytes. -/
def maxSockets : ℕ := 2 ^ 58

/-- The sockets below `next` are allocated. -/
structure ConnWorld extends SockWorld where
  peer : ℕ → Option ℕ
  queue : ℕ → Hdr ℕ
  link : ℕ → Link ℕ
  next : ℕ

/-- `socket->state`. -/
def ConnWorld.state (w : ConnWorld) (s : ℕ) : SocketState := (w.sockets s).state

def ConnWorld.setState (w : ConnWorld) (s : ℕ) (state : SocketState) : ConnWorld :=
  { w with sockets := Function.update w.sockets s { w.sockets s with state } }

def createSocket (w : ConnWorld) : Option (ℕ × ConnWorld) :=
  if w.next < maxSockets then
    some (w.next, { w with
      sockets := Function.update w.sockets w.next ⟨.new, none⟩
      peer := Function.update w.peer w.next none
      queue := Function.update w.queue w.next .init
      link := Function.update w.link w.next .init
      next := w.next + 1 })
  else none

/-- The socket at an address, if there is a socket vnode there, and the nodes after `vfs_open`. -/
def connectTarget (root : ℕ) (w : SockWorld) (addr : CStr) : Option (Option ℕ × Nodes) := do
  let r ← vfsOpen (rootMount root) w.nodes addr
  match r.out with
  | none => return (none, r.nodes)
  | some vn =>
    let node ← r.nodes.node vn
    if node.type ≠ .socket then return (none, r.nodes)
    else return (some (← w.mpData vn), r.nodes)

def connect (root : ℕ) (w : ConnWorld) (self : ℕ) (addr : CStr) : Option (ℤ × ConnWorld) := do
  guard (self < w.next)
  let (target, nodes) ← connectTarget root w.toSockWorld addr
  let w := { w with nodes }
  match target with
  | none => return (-enoent, w)
  | some t =>
    guard (t ≠ self)
    if w.state t ≠ .listening then return (-econnrefused, w)
    else
      let w := w.setState self .connecting
      let (hdr, link) ← Dlist.append (w.queue t) w.link self
      return (eok, { w with queue := Function.update w.queue t hdr, link })

def listen (w : ConnWorld) (self : ℕ) : Option (ℤ × ConnWorld) := do
  guard (self < w.next)
  return (eok, w.setState self .listening)

/-- The critical section of `accept(self, ..)`: the new socket, unless the queue is empty and the call
tries again. -/
def accept (w : ConnWorld) (self : ℕ) : Option (Option ℕ × ConnWorld) := do
  guard (self < w.next)
  if (← Dlist.isEmpty (w.queue self)) = true then return (none, w)
  else
    let (peer, hdr, link) := Dlist.popHead (w.queue self) w.link
    let peer ← peer
    let w := { w with queue := Function.update w.queue self hdr, link }
    let (new, w) ← createSocket w
    let w := w.setState new .connected
    let w := { w with peer := Function.update w.peer new (some peer) }
    let w := w.setState peer .connected
    return (some new, { w with peer := Function.update w.peer peer (some new) })

inductive ConnOp
  | create
  | bind (self : ℕ) (addr : CStr)
  | listen (self : ℕ)
  | connect (self : ℕ) (addr : CStr)
  | accept (self : ℕ)

/-- `bind(self, addr)` leaves the connections alone. -/
def ConnWorld.bind (root : ℕ) (w : ConnWorld) (self : ℕ) (addr : CStr) : Option (ℤ × ConnWorld) := do
  guard (self < w.next)
  let (st, base) ← Sockets.bind root w.toSockWorld self addr
  return (st, { w with toSockWorld := base })

def connStep (root : ℕ) (w : ConnWorld) : ConnOp → Option ConnWorld
  | .create => (createSocket w).map Prod.snd
  | .bind self addr => (w.bind root self addr).map Prod.snd
  | .listen self => (listen w self).map Prod.snd
  | .connect self addr => (connect root w self addr).map Prod.snd
  | .accept self => (accept w self).map Prod.snd

/-- No sockets yet; the nodes and the memory of the sockets to come are arbitrary. -/
def ConnWorld.Start (w : ConnWorld) : Prop := w.next = 0 ∧ ∀ vn, w.mpData vn = none

/-! ## What the calls do -/

section

variable {root : ℕ} {w w' : ConnWorld} {self : ℕ} {addr : CStr}

theorem state_setState (w : ConnWorld) (s a : ℕ) (state : SocketState) :
    (w.setState s state).state a = if a = s then state else w.state a := by
  unfold ConnWorld.state ConnWorld.setState
  by_cases h : a = s
  · subst h
    simp only [update_self, if_true]
  · simp only [update_of_ne h, if_neg h]

/-- The call gets to a socket that listens. -/
def Gets (root : ℕ) (w : ConnWorld) (addr : CStr) : Prop :=
  ∃ t nodes, connectTarget root w.toSockWorld addr = some (some t, nodes) ∧ w.state t = .listening

instance (root : ℕ) (w : ConnWorld) (addr : CStr) : Decidable (Gets root w addr) :=
  decidable_of_iff (∃ r ∈ connectTarget root w.toSockWorld addr, ∃ t ∈ r.1, w.state t = .listening)
    ⟨fun ⟨(_, nodes), hr, t, ht, hstate⟩ => ⟨t, nodes, by cases ht; exact hr, hstate⟩,
      fun ⟨t, nodes, hr, hstate⟩ => ⟨(some t, nodes), hr, t, rfl, hstate⟩⟩

theorem connectTarget_mpData {b : SockWorld} {t : ℕ} {nodes : Nodes}
    (h : connectTarget root b addr = some (some t, nodes)) : ∃ vn, b.mpData vn = some t := by
  obtain ⟨r, -, h⟩ := bind_eq_some_iff.mp h
  cases hout : r.out with
  | none =>
    rw [hout] at h
    cases h
  | some vn =>
    rw [hout] at h
    obtain ⟨node, -, h⟩ := bind_eq_some_iff.mp h
    split_ifs at h
    · cases h
    · obtain ⟨t', ht', h⟩ := bind_eq_some_iff.mp h
      cases h
      exact ⟨vn, ht'⟩

theorem connect_cases {st : ℤ} (h : connect root w self addr = some (st, w')) :
    self < w.next ∧
      ((st ≠ eok ∧ ¬ Gets root w addr ∧ ∃ nodes, w' = { w with nodes }) ∨
        (st = eok ∧ Gets root w addr ∧ ∃ t nodes hdr link, t ≠ self ∧
          connectTarget root w.toSockWorld addr = some (some t, nodes) ∧
          w.state t = .listening ∧ Dlist.append (w.queue t) w.link self = some (hdr, link) ∧
            w' = { w with
              nodes
              sockets := update w.sockets self { w.sockets self with state := .connecting }
              queue := update w.queue t hdr
              link })) := by
  obtain ⟨_, hself, h⟩ := bind_eq_some_iff.mp h
  refine ⟨(guard_eq_some' _).mp hself, ?_⟩
  obtain ⟨⟨target, nodes⟩, htarget, h⟩ := bind_eq_some_iff.mp h
  cases target with
  | none =>
    cases h
    refine Or.inl ⟨by decide, ?_, nodes, rfl⟩
    rintro ⟨t, nodes', ht, -⟩
    rw [htarget] at ht
    cases ht
  | some t =>
    obtain ⟨_, hne, h⟩ := bind_eq_some_iff.mp h
    dsimp only at h
    split_ifs at h with hlisten
    · cases h
      refine Or.inl ⟨by decide, ?_, nodes, rfl⟩
      rintro ⟨t', nodes', ht, hstate⟩
      rw [htarget] at ht
      cases ht
      exact hlisten hstate
    · obtain ⟨⟨hdr, link⟩, happ, h⟩ := bind_eq_some_iff.mp h
      cases h
      rw [ne_eq, not_not] at hlisten
      exact Or.inr ⟨rfl, ⟨t, nodes, htarget, hlisten⟩, t, nodes, hdr, link,
        (guard_eq_some' _).mp hne, htarget, hlisten, happ, rfl⟩

theorem listen_cases {st : ℤ} (h : listen w self = some (st, w')) :
    self < w.next ∧ w' = w.setState self .listening := by
  obtain ⟨_, hself, h⟩ := bind_eq_some_iff.mp h
  cases h
  exact ⟨(guard_eq_some' _).mp hself, rfl⟩

theorem createSocket_cases {new : ℕ} (h : createSocket w = some (new, w')) :
    w.next < maxSockets ∧ new = w.next ∧ w' = { w with
      sockets := update w.sockets w.next ⟨.new, none⟩
      peer := update w.peer w.next none
      queue := update w.queue w.next .init
      link := update w.link w.next .init
      next := w.next + 1 } := by
  unfold createSocket at h
  split_ifs at h with hmax
  cases h
  exact ⟨hmax, rfl, rfl⟩

theorem createSocket_state {new : ℕ} (h : createSocket w = some (new, w')) (a : ℕ) :
    w'.state a = if a = w.next then .new else w.state a := by
  obtain ⟨-, -, rfl⟩ := createSocket_cases h
  unfold ConnWorld.state
  by_cases ha : a = w.next
  · subst ha
    simp only [update_self, if_true]
  · simp only [update_of_ne ha, if_neg ha]

theorem bind_cases {st : ℤ} (h : w.bind root self addr = some (st, w')) :
    self < w.next ∧ (∃ base, w' = { w with toSockWorld := base }) ∧
      (∀ s, w'.state s = w.state s ∨ s = self ∧ w.state s = .new ∧ w'.state s = .bound) ∧
        ∀ vn t, w'.mpData vn = some t → w.mpData vn = some t ∨ t = self := by
  obtain ⟨_, hself, h⟩ := bind_eq_some_iff.mp h
  obtain ⟨⟨st', base⟩, hbind, h⟩ := bind_eq_some_iff.mp h
  cases h
  refine ⟨(guard_eq_some' _).mp hself, ⟨base, rfl⟩, fun s => ?_, fun vn t ht => ?_⟩
  · by_cases hnew : w.state self = .new
    · obtain ⟨_, _, -, hcase⟩ := bind_some hnew hbind
      rcases hcase with ⟨-, -, hsock⟩ | ⟨-, -, vn, -, hsock⟩
      · exact Or.inl (by unfold ConnWorld.state; rw [hsock])
      · by_cases hs : s = self
        · subst hs
          refine Or.inr ⟨rfl, hnew, ?_⟩
          unfold ConnWorld.state
          rw [hsock, update_self]
        · refine Or.inl ?_
          unfold ConnWorld.state
          rw [hsock, update_of_ne hs]
    · cases bind_of_not_new hnew hbind
      exact Or.inl rfl
  · unfold Sockets.bind at hbind
    split_ifs at hbind
    · cases hbind
      exact Or.inl ht
    · obtain ⟨⟨st₀, out, nodes⟩, -, hbind⟩ := bind_eq_some_iff.mp hbind
      dsimp only at hbind
      split_ifs at hbind
      · cases hbind
        exact Or.inl ht
      · obtain ⟨v, -, hbind⟩ := bind_eq_some_iff.mp hbind
        cases hbind
        dsimp only at ht
        by_cases hvn : vn = v
        · subst hvn
          rw [update_self] at ht
          exact Or.inr (Option.some.inj ht).symm
        · rw [update_of_ne hvn] at ht
          exact Or.inl ht

theorem accept_cases {new : Option ℕ} (h : accept w self = some (new, w')) :
    self < w.next ∧
      ((new = none ∧ Dlist.isEmpty (w.queue self) = some true ∧ w' = w) ∨
        ∃ p hdr link, new = some w.next ∧ w.next < maxSockets ∧
          Dlist.popHead (w.queue self) w.link = (some p, hdr, link) ∧
            (∀ a, w'.state a = if a = p ∨ a = w.next then .connected else w.state a) ∧
            w'.mpData = w.mpData ∧ w'.nodes = w.nodes ∧
            w'.peer = update (update w.peer w.next (some p)) p (some w.next) ∧
            w'.queue = update (update w.queue self hdr) w.next .init ∧
            w'.link = update link w.next .init ∧ w'.next = w.next + 1) := by
  obtain ⟨_, hself, h⟩ := bind_eq_some_iff.mp h
  refine ⟨(guard_eq_some' _).mp hself, ?_⟩
  obtain ⟨empty, hempty, h⟩ := bind_eq_some_iff.mp h
  split_ifs at h with he
  · subst he
    cases h
    exact Or.inl ⟨rfl, hempty, rfl⟩
  · cases hpop : Dlist.popHead (w.queue self) w.link with
    | mk peer r =>
      obtain ⟨hdr, link⟩ := r
      rw [hpop] at h
      simp only [bind_eq_bind, bind_eq_some_iff] at h
      obtain ⟨p, rfl, ⟨n, w₁⟩, hcreate, h⟩ := h
      obtain ⟨hmax, rfl, rfl⟩ := createSocket_cases hcreate
      cases h
      refine Or.inr ⟨p, hdr, link, rfl, hmax, rfl, fun a => ?_, rfl, rfl, ?_, rfl, rfl, rfl⟩
      · simp only [ConnWorld.state, ConnWorld.setState, update_self, update_idem]
        by_cases hap : a = p
        · subst hap
          simp only [update_self, true_or, if_true]
        · simp only [hap, false_or, update_of_ne, ne_eq, not_false_eq_true]
          by_cases han : a = w.next
          · subst han
            simp only [update_self, if_true]
          · simp only [update_of_ne han, if_neg han]
      · simp only [ConnWorld.setState, update_idem]

end

/-! ## Accept queues -/

/-- The accept queues are the lists `L`, and no socket is on two of them. -/
structure Queues (w : ConnWorld) (L : ℕ → List ℕ) : Prop where
  rep : ∀ s < w.next, Rep (w.queue s) w.link (L s)
  live : ∀ s < w.next, ∀ x ∈ L s, x < w.next
  one : ∀ s < w.next, ∀ s' < w.next, ∀ x ∈ L s, x ∈ L s' → s = s'
  target : ∀ vn t, w.mpData vn = some t → t < w.next
  bound : w.next ≤ maxSockets

namespace Queues

variable {w w' : ConnWorld} {L : ℕ → List ℕ} {s t x : ℕ}

theorem start (h : w.Start) : Queues w L where
  rep s hs := by rw [h.1] at hs; cases hs
  live s hs := by rw [h.1] at hs; cases hs
  one s hs := by rw [h.1] at hs; cases hs
  target vn t ht := by rw [h.2] at ht; cases ht
  bound := by rw [h.1]; exact Nat.zero_le _

theorem length_lt (h : Queues w L) (hs : s < w.next) : (L s).length + 1 < 2 ^ 64 := by
  have hsub : L s ⊆ List.range w.next := fun x hx => mem_range.mpr (h.live s hs x hx)
  have hle := ((h.rep s hs).linked.nodup.subperm hsub).length_le
  rw [length_range] at hle
  have hbound := h.bound
  unfold maxSockets at hbound
  omega

theorem congr (h : Queues w L) (hqueue : w'.queue = w.queue) (hlink : w'.link = w.link)
    (hnext : w'.next = w.next) (htarget : ∀ vn t, w'.mpData vn = some t → t < w.next) :
    Queues w' L := by
  refine ⟨?_, ?_, ?_, ?_, ?_⟩ <;> rw [hnext]
  · rw [hqueue, hlink]
    exact h.rep
  · exact h.live
  · exact h.one
  · exact htarget
  · exact h.bound

theorem alloc (h : Queues w L) (hmax : w.next < maxSockets)
    (hqueue : w'.queue = update w.queue w.next .init)
    (hlink : w'.link = update w.link w.next .init) (hnext : w'.next = w.next + 1)
    (hmp : w'.mpData = w.mpData) : Queues w' (update L w.next []) := by
  have hcases : ∀ s < w.next + 1, s = w.next ∧ update L w.next [] s = [] ∨
      s < w.next ∧ update L w.next [] s = L s := by
    intro s hs
    by_cases he : s = w.next
    · subst he
      exact Or.inl ⟨rfl, update_self ..⟩
    · exact Or.inr ⟨by omega, update_of_ne he ..⟩
  refine ⟨?_, ?_, ?_, ?_, ?_⟩ <;> rw [hnext]
  · intro s hs
    rw [hqueue, hlink]
    rcases hcases s hs with ⟨rfl, hL⟩ | ⟨hs, hL⟩
    · rw [hL, update_self]
      exact Rep.init _
    · rw [hL, update_of_ne (by omega)]
      refine (h.rep s hs).congr fun x hx => update_of_ne ?_ ..
      have := h.live s hs x hx
      omega
  · intro s hs x hx
    rcases hcases s hs with ⟨-, hL⟩ | ⟨hs, hL⟩
    · rw [hL] at hx
      cases hx
    · rw [hL] at hx
      exact Nat.lt_succ_of_lt (h.live s hs x hx)
  · intro s hs s' hs' x hx hx'
    rcases hcases s hs with ⟨-, hL⟩ | ⟨hs, hL⟩
    · rw [hL] at hx
      cases hx
    · rcases hcases s' hs' with ⟨-, hL'⟩ | ⟨hs', hL'⟩
      · rw [hL'] at hx'
        cases hx'
      · rw [hL] at hx
        rw [hL'] at hx'
        exact h.one s hs s' hs' x hx hx'
  · intro vn t ht
    rw [hmp] at ht
    exact Nat.lt_succ_of_lt (h.target vn t ht)
  · exact hmax

theorem push (h : Queues w L) (ht : t < w.next) (hx : x < w.next) (hfree : ∀ s < w.next, x ∉ L s)
    {hdr : Hdr ℕ} {link : ℕ → Link ℕ} (happ : Dlist.append (w.queue t) w.link x = some (hdr, link))
    (hqueue : w'.queue = update w.queue t hdr) (hlink : w'.link = link)
    (hnext : w'.next = w.next) (hmp : w'.mpData = w.mpData) :
    Queues w' (update L t (L t ++ [x])) := by
  obtain ⟨hdr', link', happ', hrep, hframe⟩ := (h.rep t ht).append (hfree t ht) (h.length_lt ht)
  rw [happ] at happ'
  cases happ'
  have hmem : ∀ s < w.next, ∀ y, y ∈ update L t (L t ++ [x]) s ↔
      y ∈ L s ∨ s = t ∧ y = x := by
    intro s _ y
    by_cases he : s = t
    · subst he
      rw [update_self, mem_append, mem_singleton]
      simp
    · rw [update_of_ne he]
      simp [he]
  refine ⟨?_, ?_, ?_, ?_, ?_⟩ <;> rw [hnext]
  · intro s hs
    rw [hqueue, hlink]
    by_cases he : s = t
    · subst he
      rw [update_self, update_self]
      exact hrep
    · rw [update_of_ne he, update_of_ne he]
      refine (h.rep s hs).congr fun y hy => hframe y (fun hyt => ?_) fun e => ?_
      · exact he (h.one s hs t ht y hy hyt)
      · exact hfree s hs (e ▸ hy)
  · intro s hs y hy
    rcases (hmem s hs y).mp hy with hy | ⟨-, rfl⟩
    · exact h.live s hs y hy
    · exact hx
  · intro s hs s' hs' y hy hy'
    rcases (hmem s hs y).mp hy with hyL | ⟨hst, hyx⟩
    · rcases (hmem s' hs' y).mp hy' with hyL' | ⟨-, hyx⟩
      · exact h.one s hs s' hs' y hyL hyL'
      · exact absurd (hyx ▸ hyL) (hfree s hs)
    · rcases (hmem s' hs' y).mp hy' with hyL' | ⟨hst', -⟩
      · exact absurd (hyx ▸ hyL') (hfree s' hs')
      · rw [hst, hst']
  · intro vn t' ht'
    rw [hmp] at ht'
    exact h.target vn t' ht'
  · exact h.bound

theorem pop (h : Queues w L) (hs : s < w.next) {p : ℕ} {hdr : Hdr ℕ} {link : ℕ → Link ℕ}
    (hpop : Dlist.popHead (w.queue s) w.link = (some p, hdr, link)) :
    ∃ l, L s = p :: l ∧ ∀ w' : ConnWorld, w'.queue = update w.queue s hdr → w'.link = link →
      w'.next = w.next → w'.mpData = w.mpData → Queues w' (update L s l) := by
  cases hL : L s with
  | nil =>
    have hhead := (h.rep s hs).head
    rw [hL] at hhead
    rw [Dlist.popHead, hhead] at hpop
    cases hpop
  | cons q l =>
    have hrep := h.rep s hs
    rw [hL] at hrep
    obtain ⟨hdr', link', hpop', hrep', hframe⟩ := hrep.popHead
    rw [hpop] at hpop'
    cases hpop'
    refine ⟨l, rfl, fun w' hqueue hlink hnext hmp => ?_⟩
    have hmem : ∀ s', ∀ y ∈ update L s l s', y ∈ L s' := by
      intro s' y hy
      by_cases he : s' = s
      · subst he
        rw [update_self] at hy
        rw [hL]
        exact mem_cons_of_mem _ hy
      · rwa [update_of_ne he] at hy
    refine ⟨?_, ?_, ?_, ?_, ?_⟩ <;> rw [hnext]
    · intro s' hs'
      rw [hqueue, hlink]
      by_cases he : s' = s
      · subst he
        rw [update_self, update_self]
        exact hrep'
      · rw [update_of_ne he, update_of_ne he]
        refine (h.rep s' hs').congr fun y hy => hframe y fun hyl => ?_
        exact he (h.one s' hs' s hs y hy (by rw [hL]; exact mem_cons_of_mem _ hyl))
    · exact fun s' hs' y hy => h.live s' hs' y (hmem s' y hy)
    · exact fun s₁ hs₁ s₂ hs₂ y hy hy' => h.one s₁ hs₁ s₂ hs₂ y (hmem s₁ y hy) (hmem s₂ y hy')
    · intro vn t ht
      rw [hmp] at ht
      exact h.target vn t ht
    · exact h.bound

end Queues

def Queued (w : ConnWorld) (L : ℕ → List ℕ) (x : ℕ) : Prop := ∃ s < w.next, x ∈ L s

section

variable {root : ℕ} {w w' : ConnWorld} {self x : ℕ} {addr : CStr} {L : ℕ → List ℕ} {st : ℤ}

theorem queued_push {t : ℕ} (ht : t < w.next) (hnext : w'.next = w.next) (y : ℕ) :
    Queued w' (update L t (L t ++ [x])) y ↔ Queued w L y ∨ y = x := by
  unfold Queued
  rw [hnext]
  constructor
  · rintro ⟨s, hs, hy⟩
    by_cases he : s = t
    · subst he
      rw [update_self, mem_append, mem_singleton] at hy
      exact hy.imp_left fun hy => ⟨s, hs, hy⟩
    · rw [update_of_ne he] at hy
      exact Or.inl ⟨s, hs, hy⟩
  · rintro (⟨s, hs, hy⟩ | rfl)
    · refine ⟨s, hs, ?_⟩
      by_cases he : s = t
      · subst he
        rw [update_self]
        exact mem_append_left _ hy
      · rwa [update_of_ne he]
    · refine ⟨t, ht, ?_⟩
      rw [update_self]
      exact mem_append_right _ mem_cons_self

theorem queued_alloc (hnext : w'.next = w.next + 1) (y : ℕ) :
    Queued w' (update L w.next []) y ↔ Queued w L y := by
  unfold Queued
  rw [hnext]
  constructor
  · rintro ⟨s, hs, hy⟩
    by_cases he : s = w.next
    · rw [he, update_self] at hy
      cases hy
    · rw [update_of_ne he] at hy
      exact ⟨s, by omega, hy⟩
  · rintro ⟨s, hs, hy⟩
    refine ⟨s, by omega, ?_⟩
    rwa [update_of_ne (by omega)]

theorem queued_pop (h : Queues w L) {s p : ℕ} {l : List ℕ} (hs : s < w.next) (hL : L s = p :: l)
    (y : ℕ) : Queued w (update L s l) y ↔ Queued w L y ∧ y ≠ p := by
  have hp : p ∈ L s := by rw [hL]; exact mem_cons_self
  have hnd := (h.rep s hs).linked.nodup
  rw [hL] at hnd
  constructor
  · rintro ⟨s', hs', hy⟩
    by_cases he : s' = s
    · subst he
      rw [update_self] at hy
      refine ⟨⟨s', hs', by rw [hL]; exact mem_cons_of_mem _ hy⟩, ?_⟩
      rintro rfl
      exact (nodup_cons.mp hnd).1 hy
    · rw [update_of_ne he] at hy
      exact ⟨⟨s', hs', hy⟩, fun e => he (h.one s' hs' s hs y hy (e ▸ hp))⟩
  · rintro ⟨⟨s', hs', hy⟩, hne⟩
    refine ⟨s', hs', ?_⟩
    by_cases he : s' = s
    · subst he
      rw [update_self]
      rw [hL] at hy
      exact (mem_cons.mp hy).resolve_left hne
    · rwa [update_of_ne he]

/-! ## The calls on the queues -/

theorem createSocket_queues (h : Queues w L) {new : ℕ} (hc : createSocket w = some (new, w')) :
    Queues w' (update L w.next []) ∧ w'.next = w.next + 1 ∧
      w'.peer = update w.peer w.next none ∧
        ∀ a, w'.state a = if a = w.next then .new else w.state a := by
  have hstate := createSocket_state hc
  obtain ⟨hmax, rfl, rfl⟩ := createSocket_cases hc
  exact ⟨h.alloc hmax rfl rfl rfl rfl, rfl, rfl, hstate⟩

theorem bind_queues (h : Queues w L) (hb : w.bind root self addr = some (st, w')) :
    Queues w' L ∧ w'.next = w.next ∧ w'.peer = w.peer ∧
      ∀ s, w'.state s = w.state s ∨ s = self ∧ w.state s = .new ∧ w'.state s = .bound := by
  obtain ⟨hself, ⟨base, rfl⟩, hstate, hmp⟩ := bind_cases hb
  refine ⟨h.congr rfl rfl rfl fun vn t ht => ?_, rfl, rfl, hstate⟩
  rcases hmp vn t ht with ht | rfl
  · exact h.target vn t ht
  · exact hself

theorem listen_queues (h : Queues w L) (hl : listen w self = some (st, w')) :
    self < w.next ∧ Queues w' L ∧ w'.next = w.next ∧ w'.peer = w.peer ∧
      ∀ a, w'.state a = if a = self then .listening else w.state a := by
  obtain ⟨hself, rfl⟩ := listen_cases hl
  exact ⟨hself, h.congr rfl rfl rfl h.target, rfl, rfl, fun a => state_setState w self a _⟩

theorem connect_queues (h : Queues w L) (hc : connect root w self addr = some (st, w'))
    (hfree : Gets root w addr → ¬ Queued w L self) :
    self < w.next ∧ w'.next = w.next ∧ w'.peer = w.peer ∧
      ((¬ Gets root w addr ∧ Queues w' L ∧ ∀ a, w'.state a = w.state a) ∨
        Gets root w addr ∧ ∃ t < w.next, t ≠ self ∧ w.state t = .listening ∧
          Queues w' (update L t (L t ++ [self])) ∧
            ∀ a, w'.state a = if a = self then .connecting else w.state a) := by
  obtain ⟨hself, hcase⟩ := connect_cases hc
  refine ⟨hself, ?_⟩
  rcases hcase with ⟨-, hnot, nodes, rfl⟩ | ⟨-, hgets, t, nodes, hdr, link, hne, htarget, hlisten, happ, rfl⟩
  · exact ⟨rfl, rfl, Or.inl ⟨hnot, h.congr rfl rfl rfl h.target, fun _ => rfl⟩⟩
  · obtain ⟨vn, hvn⟩ := connectTarget_mpData htarget
    refine ⟨rfl, rfl, Or.inr ⟨hgets, t, h.target vn t hvn, hne, hlisten, ?_, ?_⟩⟩
    · exact h.push (h.target vn t hvn) hself (fun s hs hx => hfree hgets ⟨s, hs, hx⟩) happ rfl rfl rfl rfl
    · exact fun a => state_setState w self a .connecting

theorem accept_queues (h : Queues w L) {new : Option ℕ} (ha : accept w self = some (new, w')) :
    self < w.next ∧ ((new = none ∧ L self = [] ∧ w' = w) ∨
      ∃ p l, new = some w.next ∧ L self = p :: l ∧ p < w.next ∧
        Queues w' (update (update L self l) w.next []) ∧ w'.next = w.next + 1 ∧
        w'.mpData = w.mpData ∧ w'.nodes = w.nodes ∧
        w'.peer = update (update w.peer w.next (some p)) p (some w.next) ∧
        ∀ a, w'.state a = if a = p ∨ a = w.next then .connected else w.state a) := by
  obtain ⟨hself, hcase⟩ := accept_cases ha
  refine ⟨hself, ?_⟩
  rcases hcase with ⟨rfl, hempty, rfl⟩ |
    ⟨p, hdr, link, rfl, hmax, hpop, hstate, hmp, hnodes, hpeer, hqueue, hlink, hnext⟩
  · rw [(h.rep self hself).isEmpty] at hempty
    exact Or.inl ⟨rfl, List.isEmpty_iff.mp (Option.some.inj hempty), rfl⟩
  · obtain ⟨l, hL, hpopped⟩ := h.pop hself hpop
    have hp : p < w.next := h.live self hself p (by rw [hL]; exact mem_cons_self)
    have hmid := hpopped { w with queue := update w.queue self hdr, link } rfl rfl rfl rfl
    exact Or.inr ⟨p, l, rfl, hL, hp, hmid.alloc hmax hqueue hlink hnext hmp, hnext, hmp, hnodes, hpeer,
      hstate⟩

end

end LykOS.Sockets
