import LykOS.Sys.Sockets.AcceptQueue

/-!
# Peers of unix sockets

A connection is made by `accept`, which makes the new socket and the one it takes off the queue each
other's peer. Nothing ends it, but a socket that has a peer can still call `connect` and `listen`, and it
is taken off a queue again when it was linked twice. Connections are symmetric exactly in the runs where
none of that happens (`peers_symmetric_iff`); it does not happen where the queues are kept well formed
and no socket with a peer connects or listens (`meets_keepsPeers`).
-/

namespace LykOS.Sockets

open Dlist Run Function
open Option hiding bind

/-- A socket is connected exactly if it has a peer, and it is the peer of its peer. -/
def SymmetricPeers (w : ConnWorld) : Prop :=
  ∀ a < w.next, (w.state a = .connected ↔ w.peer a ≠ none) ∧
    ∀ b, w.peer a = some b → b < w.next ∧ w.peer b = some a

/-- No connected socket calls `connect` to a listening one or `listen`. -/
def LeavesConnected (root : ℕ) (w : ConnWorld) : ConnOp → Prop
  | .connect self addr => Gets root w addr → w.state self ≠ .connected
  | .listen self => w.state self ≠ .connected
  | _ => True

/-- Nor is one the first of the queue of an `accept`. -/
def KeepsPeers (root : ℕ) (w : ConnWorld) : ConnOp → Prop
  | .accept self => ∀ p, (w.queue self).head = some p → w.state p ≠ .connected
  | op => LeavesConnected root w op

instance (root : ℕ) (w : ConnWorld) : ∀ op, Decidable (KeepsPeers root w op)
  | .connect _ _ => inferInstanceAs (Decidable (_ → _))
  | .listen _ => inferInstanceAs (Decidable (_ ≠ _))
  | .accept self => inferInstanceAs (Decidable (∀ p ∈ (w.queue self).head, w.state p ≠ .connected))
  | .create | .bind _ _ => isTrue trivial

/-- All pointers lead to sockets that exist, whether or not the queues are well formed. -/
structure PointersValid (w : ConnWorld) : Prop where
  queue : ∀ s < w.next, (w.queue s).Within (· < w.next)
  link : ∀ x < w.next, (w.link x).Within (· < w.next)
  target : ∀ vn t, w.mpData vn = some t → t < w.next

section

variable {root : ℕ} {w w' : ConnWorld} {self : ℕ} {addr : CStr} {st : ℤ}

/-! ## Pointers -/

theorem PointersValid.congr (h : PointersValid w) (hqueue : w'.queue = w.queue)
    (hlink : w'.link = w.link) (hnext : w'.next = w.next)
    (htarget : ∀ vn t, w'.mpData vn = some t → t < w.next) : PointersValid w' := by
  refine ⟨?_, ?_, ?_⟩ <;> rw [hnext]
  · rw [hqueue]
    exact h.queue
  · rw [hlink]
    exact h.link
  · exact htarget

theorem PointersValid.alloc (h : PointersValid w)
    (hqueue : w'.queue = update w.queue w.next .init)
    (hlink : w'.link = update w.link w.next .init) (hnext : w'.next = w.next + 1)
    (hmp : w'.mpData = w.mpData) : PointersValid w' := by
  refine ⟨?_, ?_, ?_⟩ <;> rw [hnext]
  · intro s hs
    rw [hqueue]
    by_cases he : s = w.next
    · rw [he, update_self]
      exact Hdr.within_init
    · rw [update_of_ne he]
      exact (h.queue s (by omega)).mono fun x hx => Nat.lt_succ_of_lt hx
  · intro x hx
    rw [hlink]
    by_cases he : x = w.next
    · rw [he, update_self]
      exact Link.within_init
    · rw [update_of_ne he]
      exact (h.link x (by omega)).mono fun x hx => Nat.lt_succ_of_lt hx
  · intro vn t ht
    rw [hmp] at ht
    exact Nat.lt_succ_of_lt (h.target vn t ht)

theorem PointersValid.update (h : PointersValid w) {s : ℕ} {hdr : Hdr ℕ} {link : ℕ → Link ℕ}
    (hhdr : hdr.Within (· < w.next)) (hlink : ∀ x < w.next, (link x).Within (· < w.next))
    (hqueue' : w'.queue = update w.queue s hdr) (hlink' : w'.link = link)
    (hnext : w'.next = w.next) (hmp : w'.mpData = w.mpData) : PointersValid w' := by
  refine ⟨?_, ?_, ?_⟩ <;> rw [hnext]
  · intro s' hs'
    rw [hqueue']
    by_cases he : s' = s
    · rw [he, update_self]
      exact hhdr
    · rw [update_of_ne he]
      exact h.queue s' hs'
  · rw [hlink']
    exact hlink
  · rw [hmp]
    exact h.target

variable {op : ConnOp}

theorem PointersValid.step (h : PointersValid w) (hstep : connStep root w op = some w') :
    PointersValid w' := by
  cases op with
  | create =>
    obtain ⟨r, hr, rfl⟩ := map_eq_some_iff.mp hstep
    obtain ⟨-, -, hw'⟩ := createSocket_cases hr
    rw [hw']
    exact h.alloc rfl rfl rfl rfl
  | bind self addr =>
    obtain ⟨r, hr, rfl⟩ := map_eq_some_iff.mp hstep
    obtain ⟨hself, ⟨base, hw'⟩, -, hmp⟩ := bind_cases hr
    refine h.congr (by rw [hw']) (by rw [hw']) (by rw [hw']) fun vn t ht => ?_
    rcases hmp vn t ht with ht | rfl
    · exact h.target vn t ht
    · exact hself
  | listen self =>
    obtain ⟨r, hr, rfl⟩ := map_eq_some_iff.mp hstep
    obtain ⟨-, hw'⟩ := listen_cases hr
    rw [hw']
    exact h.congr rfl rfl rfl h.target
  | connect self addr =>
    obtain ⟨r, hr, rfl⟩ := map_eq_some_iff.mp hstep
    obtain ⟨hself, ⟨-, -, nodes, hw'⟩ | ⟨-, -, t, nodes, hdr, link, -, htarget, -, happ, hw'⟩⟩ :=
      connect_cases hr
    · rw [hw']
      exact h.congr rfl rfl rfl h.target
    · obtain ⟨vn, hvn⟩ := connectTarget_mpData htarget
      obtain ⟨hhdr, hlink⟩ := append_within (h.queue t (h.target vn t hvn)) h.link hself happ
      rw [hw']
      exact h.update hhdr hlink rfl rfl rfl rfl
  | accept self =>
    obtain ⟨r, hr, rfl⟩ := map_eq_some_iff.mp hstep
    obtain ⟨hself, ⟨-, -, hw'⟩ | ⟨p, hdr, link, -, -, hpop, -, hmp, -, -, hqueue, hlink, hnext⟩⟩ :=
      accept_cases hr
    · rwa [hw']
    · obtain ⟨-, -, hhdr, hlinks⟩ := popHead_within (h.queue self hself) h.link hpop
      have hmid : PointersValid { w with queue := Function.update w.queue self hdr, link } :=
        h.update hhdr hlinks rfl rfl rfl rfl
      exact hmid.alloc hqueue hlink hnext hmp

/-! ## Symmetry -/

theorem symmetricPeers_iff_of_leave (h : SymmetricPeers w) (hself : self < w.next) {s : SocketState}
    (hs : s ≠ .connected) (hstate : ∀ a, w'.state a = if a = self then s else w.state a)
    (hpeer : w'.peer = w.peer) (hnext : w'.next = w.next) :
    SymmetricPeers w' ↔ w.state self ≠ .connected := by
  constructor
  · intro h' hconn
    have hsome := (h self hself).1.mp hconn
    rw [← hpeer] at hsome
    have := (h' self (hnext ▸ hself)).1.mpr hsome
    rw [hstate, if_pos rfl] at this
    exact hs this
  · intro hne a ha
    rw [hnext] at ha ⊢
    rw [hpeer]
    refine ⟨?_, (h a ha).2⟩
    rw [hstate]
    by_cases he : a = self
    · rw [if_pos he]
      refine iff_of_false hs fun hsome => ?_
      rw [he] at hsome
      exact hne ((h self hself).1.mpr hsome)
    · rw [if_neg he]
      exact (h a ha).1

theorem symmetricPeers_bind (h : SymmetricPeers w) (hb : w.bind root self addr = some (st, w')) :
    SymmetricPeers w' := by
  obtain ⟨-, ⟨base, hw'⟩, hstate, -⟩ := bind_cases hb
  have hpeer : w'.peer = w.peer := by rw [hw']
  have hnext : w'.next = w.next := by rw [hw']
  intro a ha
  rw [hnext] at ha ⊢
  rw [hpeer]
  refine ⟨?_, (h a ha).2⟩
  rcases hstate a with he | ⟨-, hnew, hbound⟩
  · rw [he]
    exact (h a ha).1
  · rw [hbound, ← (h a ha).1, hnew]
    decide

theorem symmetricPeers_create (h : SymmetricPeers w) {new : ℕ}
    (hc : createSocket w = some (new, w')) : SymmetricPeers w' := by
  have hstate := createSocket_state hc
  obtain ⟨-, -, rfl⟩ := createSocket_cases hc
  intro a ha
  dsimp only at ha ⊢
  rw [hstate]
  by_cases he : a = w.next
  · rw [if_pos he, he, update_self]
    exact ⟨by decide, fun b hb => nomatch hb⟩
  · rw [if_neg he, update_of_ne he]
    have hold := h a (by omega)
    refine ⟨hold.1, fun b hb => ?_⟩
    obtain ⟨hlt, hback⟩ := hold.2 b hb
    exact ⟨by omega, by rw [update_of_ne (by omega)]; exact hback⟩

theorem symmetricPeers_iff_of_pair (h : SymmetricPeers w) {p : ℕ} (hp : p < w.next)
    (hapart : w.peer p ≠ some p)
    (hstate : ∀ a, w'.state a = if a = p ∨ a = w.next then .connected else w.state a)
    (hpeer : w'.peer = update (update w.peer w.next (some p)) p (some w.next))
    (hnext : w'.next = w.next + 1) : SymmetricPeers w' ↔ w.state p ≠ .connected := by
  have hpn : w.next ≠ p := by omega
  have hpeer_p : w'.peer p = some w.next := by rw [hpeer, update_self]
  have hpeer_new : w'.peer w.next = some p := by
    rw [hpeer, update_of_ne hpn, update_self]
  have hpeer_other : ∀ a < w.next, a ≠ p → w'.peer a = w.peer a := by
    intro a ha hap
    rw [hpeer, update_of_ne hap, update_of_ne (by omega)]
  constructor
  · intro h' hconn
    obtain ⟨q, hq⟩ := ne_none_iff_exists'.mp ((h p hp).1.mp hconn)
    obtain ⟨hqlt, hback⟩ := (h p hp).2 q hq
    have hqp : q ≠ p := by
      rintro rfl
      exact hapart hq
    have hqpeer : w'.peer q = some p := by rw [hpeer_other q hqlt hqp, hback]
    have hpq := ((h' q (by omega)).2 p hqpeer).2
    rw [hpeer_p] at hpq
    exact absurd (Option.some.inj hpq) (by omega)
  · intro hne a ha
    have hnone : w.peer p = none := by
      by_contra hsome
      exact hne ((h p hp).1.mpr hsome)
    rw [hnext] at ha ⊢
    rw [hstate]
    by_cases hap : a = p
    · rw [if_pos (Or.inl hap), hap, hpeer_p]
      refine ⟨by simp, fun b hb => ?_⟩
      obtain rfl := Option.some.inj hb
      exact ⟨by omega, hpeer_new⟩
    · by_cases han : a = w.next
      · rw [if_pos (Or.inr han), han, hpeer_new]
        refine ⟨by simp, fun b hb => ?_⟩
        obtain rfl := Option.some.inj hb
        exact ⟨by omega, hpeer_p⟩
      · have hlt : a < w.next := by omega
        rw [if_neg (not_or.mpr ⟨hap, han⟩), hpeer_other a hlt hap]
        refine ⟨(h a hlt).1, fun b hb => ?_⟩
        obtain ⟨hblt, hback⟩ := (h a hlt).2 b hb
        have hbp : b ≠ p := by
          rintro rfl
          rw [hnone] at hback
          cases hback
        exact ⟨by omega, by rw [hpeer_other b hblt hbp]; exact hback⟩

/-! ## Runs -/

structure PeerInv (w : ConnWorld) : Prop where
  valid : PointersValid w
  symmetric : SymmetricPeers w
  apart : ∀ a < w.next, w.peer a ≠ some a

theorem PeerInv.start (h : w.Start) : PeerInv w where
  valid :=
    { queue := fun s hs => by rw [h.1] at hs; cases hs
      link := fun x hx => by rw [h.1] at hx; cases hx
      target := fun vn t ht => by rw [h.2] at ht; cases ht }
  symmetric a ha := by rw [h.1] at ha; cases ha
  apart a ha := by rw [h.1] at ha; cases ha

theorem PeerInv.symmetric_iff (h : PeerInv w) (hstep : connStep root w op = some w') :
    SymmetricPeers w' ↔ KeepsPeers root w op := by
  cases op with
  | create =>
    obtain ⟨r, hr, rfl⟩ := map_eq_some_iff.mp hstep
    exact iff_of_true (symmetricPeers_create h.symmetric hr) trivial
  | bind self addr =>
    obtain ⟨r, hr, rfl⟩ := map_eq_some_iff.mp hstep
    exact iff_of_true (symmetricPeers_bind h.symmetric hr) trivial
  | listen self =>
    obtain ⟨r, hr, rfl⟩ := map_eq_some_iff.mp hstep
    obtain ⟨hself, hw'⟩ := listen_cases hr
    refine symmetricPeers_iff_of_leave h.symmetric hself (s := .listening) (by decide) ?_ ?_ ?_
    · rw [hw']
      exact fun a => state_setState w self a _
    · rw [hw']
      rfl
    · rw [hw']
      rfl
  | connect self addr =>
    obtain ⟨r, hr, rfl⟩ := map_eq_some_iff.mp hstep
    obtain ⟨hself, ⟨-, hnot, nodes, hw'⟩ | ⟨-, hgets, t, nodes, hdr, link, -, -, -, -, hw'⟩⟩ :=
      connect_cases hr
    · refine iff_of_true ?_ fun hgets => absurd hgets hnot
      rw [hw']
      exact h.symmetric
    · refine (symmetricPeers_iff_of_leave h.symmetric hself (s := .connecting) (by decide) ?_ ?_ ?_).trans
        ⟨fun hne _ => hne, fun hkeeps => hkeeps hgets⟩
      · rw [hw']
        exact fun a => state_setState w self a .connecting
      · rw [hw']
      · rw [hw']
  | accept self =>
    obtain ⟨r, hr, rfl⟩ := map_eq_some_iff.mp hstep
    obtain ⟨hself, ⟨-, hempty, hw'⟩ | ⟨p, hdr, link, -, -, hpop, hstate, -, -, hpeer, -, -, hnext⟩⟩ :=
      accept_cases hr
    · rw [hw']
      refine iff_of_true h.symmetric fun p hp => ?_
      unfold Dlist.isEmpty at hempty
      rw [hp] at hempty
      split_ifs at hempty
      cases hempty
    · obtain ⟨hhead, hp, -, -⟩ := popHead_within (h.valid.queue self hself) h.valid.link hpop
      refine (symmetricPeers_iff_of_pair h.symmetric hp (h.apart p hp) hstate hpeer hnext).trans ?_
      exact ⟨fun hne q hq => Option.some.inj (hhead.symm.trans hq) ▸ hne, fun hkeeps => hkeeps p hhead⟩

theorem PeerInv.apart_step (h : PeerInv w) (hstep : connStep root w op = some w') :
    ∀ a < w'.next, w'.peer a ≠ some a := by
  cases op with
  | create =>
    obtain ⟨r, hr, rfl⟩ := map_eq_some_iff.mp hstep
    obtain ⟨-, -, hw'⟩ := createSocket_cases hr
    rw [hw']
    intro a ha
    dsimp only at ha ⊢
    by_cases he : a = w.next
    · rw [he, update_self]
      exact (some_ne_none _).symm
    · rw [update_of_ne he]
      exact h.apart a (by omega)
  | bind self addr =>
    obtain ⟨r, hr, rfl⟩ := map_eq_some_iff.mp hstep
    obtain ⟨-, ⟨base, hw'⟩, -, -⟩ := bind_cases hr
    rw [hw']
    exact h.apart
  | listen self =>
    obtain ⟨r, hr, rfl⟩ := map_eq_some_iff.mp hstep
    obtain ⟨-, hw'⟩ := listen_cases hr
    rw [hw']
    exact h.apart
  | connect self addr =>
    obtain ⟨r, hr, rfl⟩ := map_eq_some_iff.mp hstep
    obtain ⟨-, ⟨-, -, nodes, hw'⟩ | ⟨-, -, t, nodes, hdr, link, -, -, -, -, hw'⟩⟩ := connect_cases hr
    · rw [hw']
      exact h.apart
    · rw [hw']
      exact h.apart
  | accept self =>
    obtain ⟨r, hr, rfl⟩ := map_eq_some_iff.mp hstep
    obtain ⟨hself, ⟨-, -, hw'⟩ | ⟨p, hdr, link, -, -, hpop, -, -, -, hpeer, -, -, hnext⟩⟩ :=
      accept_cases hr
    · rw [hw']
      exact h.apart
    · obtain ⟨-, hp, -, -⟩ := popHead_within (h.valid.queue self hself) h.valid.link hpop
      intro a ha
      rw [hnext] at ha
      rw [hpeer]
      by_cases hap : a = p
      · rw [hap, update_self]
        exact fun e => absurd (Option.some.inj e) (by omega)
      · rw [update_of_ne hap]
        by_cases han : a = w.next
        · rw [han, update_self]
          exact fun e => absurd (Option.some.inj e) (by omega)
        · rw [update_of_ne han]
          exact h.apart a (by omega)

theorem PeerInv.step (h : PeerInv w) (hkeeps : KeepsPeers root w op)
    (hstep : connStep root w op = some w') : PeerInv w' :=
  ⟨h.valid.step hstep, (h.symmetric_iff hstep).mpr hkeeps, h.apart_step hstep⟩

end

/-- Connections are symmetric after every call of a run from the start exactly if in no call of it a
connected socket connects to a listening one, listens, or is taken off a queue. -/
theorem peers_symmetric_iff (root : ℕ) {w t : ConnWorld} {ops : List ConnOp} (hw : w.Start)
    (h : run (connStep root) w ops = some t) :
    Meets (connStep root) (fun w op => ∀ w', connStep root w op = some w' → SymmetricPeers w') w ops ↔
      Meets (connStep root) (KeepsPeers root) w ops := by
  refine meets_iff_of_run (I := PeerInv) (fun s op s' hs hs' => ?_)
    (fun s op s' hs hD hs' => hs.step hD hs') (.start hw) h
  constructor
  · exact fun hsym => (hs.symmetric_iff hs').mp (hsym s' hs')
  · exact fun hkeeps s'' hs'' => (hs.symmetric_iff hs'').mpr hkeeps

/-- A connected socket is taken off a queue only after calls that broke the queues. -/
theorem meets_keepsPeers {root : ℕ} {w t : ConnWorld} {ops : List ConnOp} (hw : w.Start)
    (hrun : run (connStep root) w ops = some t)
    (h : Meets (connStep root) (fun w op => KeepsQueues root w op ∧ LeavesConnected root w op) w ops) :
    Meets (connStep root) (KeepsPeers root) w ops := by
  have hboth := (meets_iff_of_run (I := fun w => ∃ L, QueueInv w L)
    (C := fun w op => (KeepsQueues root w op ∧ LeavesConnected root w op) ∧ KeepsPeers root w op)
    (fun s op s' hs hs' => ?_) (fun s op s' hs hD hs' => QueueInv.step hs hD.1 hs')
    ⟨_, QueueInv.start hw⟩ hrun).mpr h
  · exact meets_of_step (I := fun _ => True) (fun _ _ _ hD => hD.2) (fun _ _ _ _ _ _ => trivial) trivial
      hboth
  refine and_iff_left_of_imp fun hD => ?_
  cases op with
  | create | bind => trivial
  | connect self addr => exact hD.2
  | listen self => exact hD.2
  | accept self =>
    obtain ⟨r, hr, -⟩ := map_eq_some_iff.mp hs'
    have hself := (accept_cases hr).1
    obtain ⟨L, hL⟩ := hs
    intro p hp
    have hmem : p ∈ L self := List.mem_of_mem_head? ((hL.queues.rep self hself).head.symm.trans hp)
    rw [(hL.connecting p (hL.queues.live self hself p hmem)).mp ⟨self, hself, hmem⟩]
    decide

theorem peers_symmetric_sample :
    connStart.Start ∧ ∃ t, run (connStep 0) connStart (connectOnce ++ [.accept 0]) = some t ∧
      Meets (connStep 0) (fun w op => ∀ w', connStep 0 w op = some w' → SymmetricPeers w')
        connStart (connectOnce ++ [.accept 0]) := by
  obtain ⟨t, ht, hkeeps⟩ : ∃ t ∈ run (connStep 0) connStart (connectOnce ++ [.accept 0]),
      Meets (connStep 0) (KeepsPeers 0) connStart (connectOnce ++ [.accept 0]) := by decide +kernel
  exact ⟨⟨rfl, fun _ => rfl⟩, t, ht, (peers_symmetric_iff 0 ⟨rfl, fun _ => rfl⟩ ht).mpr hkeeps⟩

/-- A client that connects twice is accepted twice: the socket of the first `accept` has it as its peer,
but it has that of the second one. -/
theorem connect_twice_asymmetric :
    ∃ t, run (connStep 0) connStart
        (connectOnce ++ [.connect 1 pathA, .accept 0, .accept 0]) = some t ∧
      t.peer 2 = some 1 ∧ t.peer 1 = some 3 ∧ ¬ SymmetricPeers t := by
  obtain ⟨t, ht, hnext, hpeer₁, hpeer₂⟩ :
      ∃ t ∈ run (connStep 0) connStart (connectOnce ++ [.connect 1 pathA, .accept 0, .accept 0]),
        t.next = 4 ∧ t.peer 1 = some 3 ∧ t.peer 2 = some 1 := by
    decide +kernel
  refine ⟨t, ht, hpeer₂, hpeer₁, fun hsym => ?_⟩
  have hback := ((hsym 2 (by rw [hnext]; decide)).2 1 hpeer₂).2
  rw [hpeer₁] at hback
  cases hback

end LykOS.Sockets
