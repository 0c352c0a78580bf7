import LykOS.Sys.Sockets.AcceptQueue

/-!
# Connections are accepted in order

Clients connect to one listening socket, and `accept` is called on it, in any order. The history of such
a run is the list of the clients that connected and the list of the sockets `accept` returned. If no
client connects twice, the two lists are matched in order, and the clients that are not matched yet are
the accept queue (`accept_fifo`).
-/

namespace LykOS.Sockets

open Vfs Dlist Run Function List

/-- A call of a client, or of the server on its socket. -/
inductive FifoOp
  | connect (client : ℕ) (addr : CStr)
  | accept

/-- The sockets, the clients of the successful `connect` calls, and the results of the completed `accept`
calls. -/
structure History where
  world : ConnWorld
  connects : List ℕ
  accepts : List ℕ

def fifoStep (root server : ℕ) (s : History) : FifoOp → Option History
  | .connect client addr => do
    let (st, world) ← Sockets.connect root s.world client addr
    return ⟨world, if st = eok then s.connects ++ [client] else s.connects, s.accepts⟩
  | .accept => do
    let (new, world) ← Sockets.accept s.world server
    return ⟨world, s.connects, s.accepts ++ new.toList⟩

/-- A socket that listens, with nothing on its queue. -/
structure Serves (w : ConnWorld) (server : ℕ) : Prop where
  bound : w.next ≤ maxSockets
  exists_server : server < w.next
  listening : w.state server = .listening
  empty : Rep (w.queue server) w.link []

/-- A `connect` is made by one of the clients, and if it gets to a listening socket, that is the server
and the client did not get to it before. -/
def ConnectsOnce (root server : ℕ) (clients : Set ℕ) (s : History) : FifoOp → Prop
  | .connect client addr => client ∈ clients ∧
      ∀ t nodes, connectTarget root s.world.toSockWorld addr = some (some t, nodes) →
        s.world.state t = .listening → t = server ∧ client ∉ s.connects
  | .accept => True

instance (root server : ℕ) (clients : Set ℕ) [DecidablePred (· ∈ clients)] (s : History) :
    ∀ op, Decidable (ConnectsOnce root server clients s op)
  | .connect client addr =>
    decidable_of_iff (client ∈ clients ∧ ∀ r ∈ connectTarget root s.world.toSockWorld addr,
        ∀ t ∈ r.1, s.world.state t = .listening → t = server ∧ client ∉ s.connects)
      (and_congr_right' ⟨fun h t nodes hr => h (some t, nodes) hr t rfl,
        fun h (_, nodes) hr t ht => h t nodes (by cases ht; exact hr)⟩)
  | .accept => isTrue trivial

def Connected (w : ConnWorld) (a b : ℕ) : Prop :=
  w.state a = .connected ∧ w.state b = .connected ∧ w.peer a = some b ∧ w.peer b = some a

/-- Connections are accepted in order: each completed `accept` returned a socket that is connected to the
client of the `connect` with the same number, no client was accepted twice, and the other clients are on
the queue, in order. As long as there are some and memory for a socket, `accept` returns. -/
structure InOrder (server : ℕ) (s : History) : Prop where
  le : s.accepts.length ≤ s.connects.length
  matched : ∀ (k c new : ℕ), s.connects[k]? = some c → s.accepts[k]? = some new → Connected s.world new c
  once : s.connects.Nodup ∧ s.accepts.Nodup
  queued : Rep (s.world.queue server) s.world.link (s.connects.drop s.accepts.length)
  waiting : ∀ c ∈ s.connects.drop s.accepts.length, s.world.state c = .connecting
  returns : s.accepts.length < s.connects.length → s.world.next < maxSockets →
    ∃ w, Sockets.accept s.world server = some (some s.world.next, w)

/-- What a run keeps: the clients are among the first `n` sockets, the accepted ones among the others. -/
structure FifoInv (server n : ℕ) (s : History) : Prop where
  le : s.accepts.length ≤ s.connects.length
  matched : ∀ (k c new : ℕ), s.connects[k]? = some c → s.accepts[k]? = some new → Connected s.world new c
  connects_nodup : s.connects.Nodup
  accepts_nodup : s.accepts.Nodup
  queued : Rep (s.world.queue server) s.world.link (s.connects.drop s.accepts.length)
  waiting : ∀ c ∈ s.connects.drop s.accepts.length, s.world.state c = .connecting
  old : ∀ c ∈ s.connects, c < n ∧ c ≠ server
  new : ∀ a ∈ s.accepts, n ≤ a ∧ a < s.world.next
  server_lt : server < n
  listening : s.world.state server = .listening
  next_le : n ≤ s.world.next
  bound : n ≤ maxSockets

section

variable {root server n : ℕ} {s s' : History}

variable {w : ConnWorld} {hdr : Hdr ℕ} {link : ℕ → Link ℕ} {p : ℕ}

theorem FifoInv.start (h : Serves w server) : FifoInv server w.next ⟨w, [], []⟩ where
  le := le_rfl
  matched k c new hc _ := by cases hc
  connects_nodup := nodup_nil
  accepts_nodup := nodup_nil
  queued := h.empty
  waiting c hc := by cases hc
  old c hc := by cases hc
  new a ha := by cases ha
  server_lt := h.exists_server
  listening := h.listening
  next_le := le_rfl
  bound := h.bound

theorem FifoInv.length_lt (h : FifoInv server n s) : s.connects.length < 2 ^ 63 := by
  have hsub : s.connects ⊆ List.range n := fun c hc => mem_range.mpr (h.old c hc).1
  have hle := (h.connects_nodup.subperm hsub).length_le
  rw [length_range] at hle
  have hbound := h.bound
  unfold maxSockets at hbound
  omega

theorem FifoInv.connect (h : FifoInv server n s) {c : ℕ} (hc : c < n) (hnew : c ∉ s.connects)
    (hne : c ≠ server) (happ : Dlist.append (s.world.queue server) s.world.link c = some (hdr, link))
    (hqueue : w.queue server = hdr) (hlink : w.link = link) (hnext : w.next = s.world.next)
    (hpeer : w.peer = s.world.peer)
    (hstate : ∀ a, w.state a = if a = c then .connecting else s.world.state a) :
    FifoInv server n ⟨w, s.connects ++ [c], s.accepts⟩ := by
  have hdrop : (s.connects ++ [c]).drop s.accepts.length = s.connects.drop s.accepts.length ++ [c] :=
    drop_append_of_le_length h.le
  have hlen := h.length_lt
  have hsmall : (s.connects.drop s.accepts.length).length + 1 < 2 ^ 64 := by
    rw [length_drop]
    omega
  obtain ⟨hdr', link', happ', hrep, -⟩ := h.queued.append (fun hx => hnew (mem_of_mem_drop hx)) hsmall
  rw [happ] at happ'
  cases happ'
  refine ⟨?_, ?_, ?_, h.accepts_nodup, ?_, ?_, ?_, ?_, h.server_lt, ?_, ?_, h.bound⟩
  · exact h.le.trans (by simp)
  · intro k c' a hk ha
    have hlt : k < s.connects.length :=
      (List.getElem?_eq_some_iff.mp ha).1.trans_le h.le
    dsimp only at hk ha
    rw [getElem?_append_left hlt] at hk
    obtain ⟨ha₁, ha₂, ha₃, ha₄⟩ := h.matched k c' a hk ha
    have hc' : c' ≠ c := fun e => hnew (e ▸ mem_of_getElem? hk)
    have hac : a ≠ c := by
      have := (h.new a (mem_of_getElem? ha)).1
      omega
    refine ⟨?_, ?_, ?_, ?_⟩
    · rw [hstate, if_neg hac, ha₁]
    · rw [hstate, if_neg hc', ha₂]
    · rw [hpeer, ha₃]
    · rw [hpeer, ha₄]
  · exact nodup_append.mpr ⟨h.connects_nodup, nodup_singleton c, fun a ha b hb =>
      fun e => hnew (by rw [mem_singleton.mp hb] at e; exact e ▸ ha)⟩
  · rw [hdrop, hqueue, hlink]
    exact hrep
  · intro x hx
    rw [hdrop] at hx
    rw [hstate]
    by_cases he : x = c
    · rw [if_pos he]
    · rw [if_neg he]
      have hx' := (mem_append.mp hx).resolve_right fun hm => he (mem_singleton.mp hm)
      exact h.waiting x hx'
  · intro x hx
    rcases mem_append.mp hx with hx | hx
    · exact h.old x hx
    · rw [mem_singleton.mp hx]
      exact ⟨hc, hne⟩
  · rw [hnext]
    exact h.new
  · rw [hstate, if_neg hne.symm]
    exact h.listening
  · rw [hnext]
    exact h.next_le

theorem FifoInv.popHead (h : FifoInv server n s)
    (hpop : Dlist.popHead (s.world.queue server) s.world.link = (some p, hdr, link)) :
    s.accepts.length < s.connects.length ∧ s.connects[s.accepts.length]? = some p ∧
      p ∉ s.connects.drop (s.accepts.length + 1) ∧
        Rep hdr link (s.connects.drop (s.accepts.length + 1)) := by
  have hrep := h.queued
  have hlt : s.accepts.length < s.connects.length := by
    by_contra hge
    rw [drop_eq_nil_of_le (by omega)] at hrep
    have hhead : (s.world.queue server).head = none := hrep.head
    rw [Dlist.popHead, hhead] at hpop
    cases hpop
  rw [drop_eq_getElem_cons hlt] at hrep
  obtain ⟨hdr', link', hpop', hrep', -⟩ := hrep.popHead
  rw [hpop] at hpop'
  cases hpop'
  exact ⟨hlt, getElem?_eq_getElem hlt, (nodup_cons.mp hrep.linked.nodup).1, hrep'⟩

theorem FifoInv.matched_snoc (h : FifoInv server n s) (hp : s.connects[s.accepts.length]? = some p)
    (hstate : ∀ a, w.state a = if a = p ∨ a = s.world.next then .connected else s.world.state a)
    (hpeer : w.peer = update (update s.world.peer s.world.next (some p)) p
      (some s.world.next)) (k c a : ℕ) (hk : s.connects[k]? = some c)
    (ha : (s.accepts ++ [s.world.next])[k]? = some a) : Connected w a c := by
  have hnext_le := h.next_le
  have hpn := (h.old p (mem_of_getElem? hp)).1
  by_cases hkl : k < s.accepts.length
  · rw [getElem?_append_left hkl] at ha
    obtain ⟨ha₁, ha₂, ha₃, ha₄⟩ := h.matched k c a hk ha
    have hcp : c ≠ p := by
      rintro rfl
      have hkeq := (getElem?_inj (List.getElem?_eq_some_iff.mp hk).1 h.connects_nodup).mp
        (hk.trans hp.symm)
      omega
    have hcn := (h.old c (mem_of_getElem? hk)).1
    obtain ⟨hna, han⟩ := h.new a (mem_of_getElem? ha)
    refine ⟨?_, ?_, ?_, ?_⟩
    · rw [hstate, if_neg (by omega), ha₁]
    · rw [hstate, if_neg (by omega), ha₂]
    · rw [hpeer, update_of_ne (by omega), update_of_ne (by omega), ha₃]
    · rw [hpeer, update_of_ne hcp, update_of_ne (by omega), ha₄]
  · have hkeq : k = s.accepts.length := by
      have hlen := (List.getElem?_eq_some_iff.mp ha).1
      rw [length_append, length_singleton] at hlen
      omega
    subst hkeq
    rw [getElem?_concat_length] at ha
    obtain rfl := Option.some.inj ha
    obtain rfl := Option.some.inj (hp.symm.trans hk)
    refine ⟨?_, ?_, ?_, ?_⟩
    · rw [hstate, if_pos (Or.inr rfl)]
    · rw [hstate, if_pos (Or.inl rfl)]
    · rw [hpeer, update_of_ne (by omega), update_self]
    · rw [hpeer, update_self]

theorem FifoInv.accept (h : FifoInv server n s)
    (hpop : Dlist.popHead (s.world.queue server) s.world.link = (some p, hdr, link))
    (hstate : ∀ a, w.state a = if a = p ∨ a = s.world.next then .connected else s.world.state a)
    (hpeer : w.peer = update (update s.world.peer s.world.next (some p)) p
      (some s.world.next))
    (hqueue : w.queue = update (update s.world.queue server hdr) s.world.next .init)
    (hlink : w.link = update link s.world.next .init) (hnext : w.next = s.world.next + 1) :
    FifoInv server n ⟨w, s.connects, s.accepts ++ [s.world.next]⟩ := by
  obtain ⟨hlt, hp, hnotin, hrep⟩ := h.popHead hpop
  have hnext_le := h.next_le
  have hserver : server ≠ s.world.next := by
    have := h.server_lt
    omega
  have hlen : (s.accepts ++ [s.world.next]).length = s.accepts.length + 1 := by simp
  have hrest : ∀ x ∈ s.connects.drop (s.accepts.length + 1), x < n :=
    fun x hx => (h.old x (mem_of_mem_drop hx)).1
  refine ⟨?_, h.matched_snoc hp hstate hpeer, h.connects_nodup, ?_, ?_, ?_, h.old, ?_, h.server_lt, ?_,
    ?_, h.bound⟩
  · rw [hlen]
    exact hlt
  · refine nodup_append.mpr ⟨h.accepts_nodup, nodup_singleton _, fun a ha b hb => ?_⟩
    have := (h.new a ha).2
    rw [mem_singleton.mp hb]
    omega
  · dsimp only
    rw [hlen, hqueue, hlink, update_of_ne hserver, update_self]
    refine hrep.congr fun x hx => update_of_ne ?_ ..
    have := hrest x hx
    omega
  · intro x hx
    dsimp only at hx
    rw [hlen] at hx
    have hxn := hrest x hx
    have hxp : x ≠ p := fun e => hnotin (e ▸ hx)
    rw [hstate, if_neg (by omega)]
    exact h.waiting x (drop_subset_drop_left _ (Nat.le_succ _) hx)
  · intro a ha
    dsimp only
    rw [hnext]
    rcases mem_append.mp ha with ha | ha
    · obtain ⟨hna, han⟩ := h.new a ha
      exact ⟨hna, by omega⟩
    · rw [mem_singleton.mp ha]
      exact ⟨hnext_le, by omega⟩
  · have hps : server ≠ p := fun e => (h.old p (mem_of_getElem? hp)).2 e.symm
    rw [hstate, if_neg (not_or.mpr ⟨hps, hserver⟩)]
    exact h.listening
  · dsimp only
    rw [hnext]
    exact hnext_le.trans (Nat.le_succ _)

theorem FifoInv.of_nodes (h : FifoInv server n s) (nodes : Nodes) :
    FifoInv server n ⟨{ s.world with nodes }, s.connects, s.accepts⟩ :=
  ⟨h.le, h.matched, h.connects_nodup, h.accepts_nodup, h.queued, h.waiting, h.old, h.new, h.server_lt,
    h.listening, h.next_le, h.bound⟩

theorem FifoInv.step {clients : Set ℕ} (hclients : ∀ c ∈ clients, c < n ∧ c ≠ server) {op : FifoOp}
    (h : FifoInv server n s) (hop : ConnectsOnce root server clients s op)
    (hstep : fifoStep root server s op = some s') : FifoInv server n s' := by
  cases op with
  | connect client addr =>
    obtain ⟨⟨st, w⟩, hc, hs'⟩ := Option.bind_eq_some_iff.mp hstep
    obtain ⟨-, ⟨hst, -, nodes, rfl⟩ | ⟨rfl, -, t, nodes, hdr, link, -, htarget, hlisten, happ, rfl⟩⟩ :=
      connect_cases hc
    · cases hs'
      rw [if_neg hst]
      exact h.of_nodes nodes
    · cases hs'
      obtain ⟨rfl, hnew⟩ := hop.2 t nodes htarget hlisten
      obtain ⟨hlt, hne⟩ := hclients client hop.1
      rw [if_pos rfl]
      exact h.connect hlt hnew hne happ (update_self ..) rfl rfl rfl
        fun a => state_setState s.world client a .connecting
  | accept =>
    obtain ⟨⟨new, w⟩, ha, hs'⟩ := Option.bind_eq_some_iff.mp hstep
    cases hs'
    obtain ⟨-, ⟨rfl, -, rfl⟩ | ⟨p, hdr, link, rfl, -, hpop, hstate, -, -, hpeer, hqueue, hlink, hnext⟩⟩ :=
      accept_cases ha
    · rw [Option.toList_none, List.append_nil]
      exact h
    · exact h.accept hpop hstate hpeer hqueue hlink hnext

theorem FifoInv.accept_returns (h : FifoInv server n s) (hlt : s.accepts.length < s.connects.length)
    (hmax : s.world.next < maxSockets) :
    ∃ w, Sockets.accept s.world server = some (some s.world.next, w) := by
  have hrep := h.queued
  rw [drop_eq_getElem_cons hlt] at hrep
  obtain ⟨hdr, link, hpop, -, -⟩ := hrep.popHead
  have hempty : isEmpty (s.world.queue server) = some false := hrep.isEmpty
  have hserver : server < s.world.next := h.server_lt.trans_le h.next_le
  simp [Sockets.accept, createSocket, guard, hserver, hempty, hpop, hmax]

theorem FifoInv.inOrder (h : FifoInv server n s) : InOrder server s :=
  ⟨h.le, h.matched, ⟨h.connects_nodup, h.accepts_nodup⟩, h.queued, h.waiting, h.accept_returns⟩

end

/-- In every run of `connect` calls of fresh clients and `accept` calls on a listening socket, in any
order, in which no client gets to the socket twice, connections are accepted in order. -/
theorem accept_fifo (root : ℕ) {w : ConnWorld} {server : ℕ} (hw : Serves w server) {clients : Set ℕ}
    (hfresh : ∀ c ∈ clients, c < w.next ∧ w.state c = .new ∧ w.peer c = none) {ops : List FifoOp}
    {t : History} (hops : Meets (fifoStep root server) (ConnectsOnce root server clients) ⟨w, [], []⟩ ops)
    (hrun : run (fifoStep root server) ⟨w, [], []⟩ ops = some t) : InOrder server t := by
  have hclients : ∀ c ∈ clients, c < w.next ∧ c ≠ server := by
    intro c hc
    obtain ⟨hlt, hnew, -⟩ := hfresh c hc
    refine ⟨hlt, ?_⟩
    rintro rfl
    rw [hw.listening] at hnew
    cases hnew
  exact (run_induction_of_meets (I := FifoInv server w.next)
    (fun _ _ _ hs hop hstep => hs.step hclients hop hstep) (.start hw) hops hrun).inOrder

def serverStart : Option ConnWorld :=
  run (connStep 0) connStart [.create, .bind 0 pathA, .listen 0, .create, .create]

def twoClients : List FifoOp := [.connect 2 pathA, .accept, .accept, .connect 1 pathA, .accept]

theorem accept_fifo_sample :
    ∃ w, serverStart = some w ∧ Serves w 0 ∧
      ∃ t, run (fifoStep 0 0) ⟨w, [], []⟩ twoClients = some t ∧ t.connects = [2, 1] ∧
        t.accepts = [3, 4] ∧ InOrder 0 t := by
  obtain ⟨w, hw, ⟨hmax, hlt, hlistening, hqueue⟩, hfresh, hops, t, ht, hconnects, haccepts⟩ :
      ∃ w ∈ serverStart,
        (w.next ≤ maxSockets ∧ 0 < w.next ∧ w.state 0 = .listening ∧ w.queue 0 = .init) ∧
        (∀ c ∈ [1, 2], c < w.next ∧ w.state c = .new ∧ w.peer c = none) ∧
        Meets (fifoStep 0 0) (ConnectsOnce 0 0 {c | c ∈ [1, 2]}) ⟨w, [], []⟩ twoClients ∧
        ∃ t ∈ run (fifoStep 0 0) ⟨w, [], []⟩ twoClients, t.connects = [2, 1] ∧ t.accepts = [3, 4] := by
    decide +kernel
  have hserves : Serves w 0 := ⟨hmax, hlt, hlistening, by rw [hqueue]; exact Rep.init _⟩
  exact ⟨w, hw, hserves, t, ht, hconnects, haccepts, accept_fifo 0 hserves hfresh hops ht⟩

end LykOS.Sockets
