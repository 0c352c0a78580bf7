import LykOS.Sys.Sockets.Connect

/-!
# Well-formed accept queues

`connect` does not look at the state of its own socket, and `listen` neither. A socket that is on a queue
can connect again, which links its node to itself or puts it on two queues, and a socket with a queue of
its own can stop listening. The queues are well formed exactly in the runs without such calls
(`queues_wellFormed_iff`).
-/

namespace LykOS.Sockets

open Dlist Run Function

/-- Every accept queue is a list of its recorded length, each socket is on at most one and at most once,
the sockets on them are those in the state `CONNECTING`, and only sockets that listen have some. -/
def WellFormedQueues (w : ConnWorld) : Prop :=
  ∃ L : ℕ → List ℕ,
    (∀ s < w.next, Rep (w.queue s) w.link (L s) ∧ (L s).Nodup ∧ ∀ x ∈ L s, x < w.next) ∧
    (∀ s < w.next, ∀ s' < w.next, ∀ x ∈ L s, x ∈ L s' → s = s') ∧
    (∀ x < w.next, Queued w L x ↔ w.state x = .connecting) ∧
    ∀ s < w.next, L s ≠ [] → w.state s = .listening

/-- The socket of a `connect` that gets to a listening one is on no queue and has an empty one, and the
socket of a `listen` is on no queue. -/
def KeepsQueues (root : ℕ) (w : ConnWorld) : ConnOp → Prop
  | .connect self addr => Gets root w addr → w.state self ≠ .connecting ∧ (w.queue self).head = none
  | .listen self => w.state self ≠ .connecting
  | _ => True

instance (root : ℕ) (w : ConnWorld) : ∀ op, Decidable (KeepsQueues root w op)
  | .connect _ _ => inferInstanceAs (Decidable (_ → _))
  | .listen _ => inferInstanceAs (Decidable (_ ≠ _))
  | .create | .bind _ _ | .accept _ => isTrue trivial

/-- `WellFormedQueues` for the lists `L`, with what the steps need to keep it. -/
structure QueueInv (w : ConnWorld) (L : ℕ → List ℕ) : Prop where
  queues : Queues w L
  connecting : ∀ x < w.next, Queued w L x ↔ w.state x = .connecting
  listening : ∀ s < w.next, L s ≠ [] → w.state s = .listening

section

variable {root : ℕ} {w w' : ConnWorld} {L : ℕ → List ℕ} {self : ℕ} {addr : CStr} {st : ℤ}

theorem QueueInv.wellFormed (h : QueueInv w L) : WellFormedQueues w :=
  ⟨L, fun s hs => ⟨h.queues.rep s hs, (h.queues.rep s hs).linked.nodup, h.queues.live s hs⟩,
    h.queues.one, h.connecting, h.listening⟩

theorem QueueInv.start (h : w.Start) : QueueInv w fun _ => [] where
  queues := .start h
  connecting x hx := by rw [h.1] at hx; cases hx
  listening s _ hs := absurd rfl hs

/-! ## What the calls keep -/

theorem QueueInv.create (h : QueueInv w L) {new : ℕ} (hc : createSocket w = some (new, w')) :
    ∃ L', QueueInv w' L' := by
  obtain ⟨hq, hnext, -, hstate⟩ := createSocket_queues h.queues hc
  refine ⟨_, hq, fun x hx => ?_, fun s hs hne => ?_⟩
  · rw [queued_alloc hnext, hstate]
    by_cases he : x = w.next
    · rw [if_pos he]
      refine iff_of_false ?_ (by decide)
      rintro ⟨s, hs, hxs⟩
      have := h.queues.live s hs x hxs
      omega
    · rw [if_neg he]
      exact h.connecting x (by omega)
  · by_cases he : s = w.next
    · rw [he, update_self] at hne
      exact absurd rfl hne
    · rw [update_of_ne he] at hne
      rw [hstate, if_neg he]
      exact h.listening s (by omega) hne

theorem QueueInv.bind (h : QueueInv w L) (hb : w.bind root self addr = some (st, w')) :
    QueueInv w' L := by
  obtain ⟨hq, hnext, -, hstate⟩ := bind_queues h.queues hb
  refine ⟨hq, fun x hx => ?_, fun s hs hne => ?_⟩
  · rw [hnext] at hx
    have hx' := h.connecting x hx
    unfold Queued at hx' ⊢
    rw [hnext, hx']
    rcases hstate x with he | ⟨-, hnew, hbound⟩
    · rw [he]
    · rw [hnew, hbound]
      decide
  · have hlisten := h.listening s (hnext ▸ hs) hne
    rcases hstate s with he | ⟨-, hnew, -⟩
    · rw [he, hlisten]
    · rw [hlisten] at hnew
      cases hnew

theorem QueueInv.listen (h : QueueInv w L) (hne : w.state self ≠ .connecting)
    (hl : Sockets.listen w self = some (st, w')) : QueueInv w' L := by
  obtain ⟨hself, hq, hnext, -, hstate⟩ := listen_queues h.queues hl
  refine ⟨hq, fun x hx => ?_, fun s hs hs' => ?_⟩
  · rw [hnext] at hx
    have hx' := h.connecting x hx
    unfold Queued at hx' ⊢
    rw [hnext, hx', hstate]
    by_cases he : x = self
    · rw [if_pos he, he]
      exact iff_of_false hne (by decide)
    · rw [if_neg he]
  · rw [hstate]
    by_cases he : s = self
    · rw [if_pos he]
    · rw [if_neg he]
      exact h.listening s (hnext ▸ hs) hs'

theorem QueueInv.connect (h : QueueInv w L)
    (hkeeps : Gets root w addr → w.state self ≠ .connecting ∧ (w.queue self).head = none)
    (hc : Sockets.connect root w self addr = some (st, w')) : ∃ L', QueueInv w' L' := by
  have hself := (connect_cases hc).1
  obtain ⟨-, hnext, -, hcase⟩ := connect_queues h.queues hc
    fun hgets hx => (hkeeps hgets).1 ((h.connecting self hself).mp hx)
  rcases hcase with ⟨-, hq, hstate⟩ | ⟨hgets, t, ht, hne, hlisten, hq, hstate⟩
  · refine ⟨L, hq, fun x hx => ?_, fun s hs hs' => ?_⟩
    · unfold Queued
      rw [hnext, hstate]
      exact h.connecting x (hnext ▸ hx)
    · rw [hstate]
      exact h.listening s (hnext ▸ hs) hs'
  · have hempty : L self = [] := by
      have hhead := (h.queues.rep self hself).head
      rw [(hkeeps hgets).2] at hhead
      exact List.head?_eq_none_iff.mp hhead.symm
    refine ⟨_, hq, fun x hx => ?_, fun s hs hs' => ?_⟩
    · rw [queued_push ht hnext, hstate, h.connecting x (hnext ▸ hx)]
      by_cases he : x = self
      · simp [he]
      · simp [he]
    · rw [hnext] at hs
      by_cases hst : s = t
      · rw [hst, hstate, if_neg hne, hlisten]
      · rw [update_of_ne hst] at hs'
        have hss : s ≠ self := fun e => hs' (e ▸ hempty)
        rw [hstate, if_neg hss]
        exact h.listening s hs hs'

theorem QueueInv.accept (h : QueueInv w L) {new : Option ℕ}
    (ha : Sockets.accept w self = some (new, w')) : ∃ L', QueueInv w' L' := by
  obtain ⟨hself, hcase⟩ := accept_queues h.queues ha
  rcases hcase with ⟨-, -, rfl⟩ | ⟨p, l, -, hL, hp, hq, hnext, -, -, -, hstate⟩
  · exact ⟨L, h⟩
  · have hpL : p ∈ L self := by rw [hL]; exact List.mem_cons_self
    refine ⟨_, hq, fun x hx => ?_, fun s hs hs' => ?_⟩
    · rw [queued_alloc hnext, queued_pop h.queues hself hL, hstate]
      by_cases hxn : x = w.next
      · rw [if_pos (Or.inr hxn)]
        refine iff_of_false ?_ (by decide)
        rintro ⟨⟨s, hs, hxs⟩, -⟩
        have := h.queues.live s hs x hxs
        omega
      · rw [h.connecting x (by omega)]
        by_cases hxp : x = p
        · simp [hxp]
        · simp [hxp, hxn]
    · by_cases hsn : s = w.next
      · rw [hsn, update_self] at hs'
        exact absurd rfl hs'
      · rw [update_of_ne hsn] at hs'
        have hne : L s ≠ [] := by
          by_cases he : s = self
          · rw [he, hL]
            exact List.cons_ne_nil _ _
          · rwa [update_of_ne he] at hs'
        have hlisten := h.listening s (by omega) hne
        have hsp : s ≠ p := by
          rintro rfl
          rw [(h.connecting s hp).mp ⟨self, hself, hpL⟩] at hlisten
          cases hlisten
        rw [hstate, if_neg (not_or.mpr ⟨hsp, hsn⟩)]
        exact hlisten

theorem QueueInv.step {op : ConnOp} (h : ∃ L, QueueInv w L) (hkeeps : KeepsQueues root w op)
    (hstep : connStep root w op = some w') : ∃ L, QueueInv w' L := by
  obtain ⟨L, h⟩ := h
  cases op with
  | create =>
    obtain ⟨r, hr, rfl⟩ := Option.map_eq_some_iff.mp hstep
    exact h.create hr
  | bind self addr =>
    obtain ⟨r, hr, rfl⟩ := Option.map_eq_some_iff.mp hstep
    exact ⟨L, h.bind hr⟩
  | listen self =>
    obtain ⟨r, hr, rfl⟩ := Option.map_eq_some_iff.mp hstep
    exact ⟨L, h.listen hkeeps hr⟩
  | connect self addr =>
    obtain ⟨r, hr, rfl⟩ := Option.map_eq_some_iff.mp hstep
    exact h.connect hkeeps hr
  | accept self =>
    obtain ⟨r, hr, rfl⟩ := Option.map_eq_some_iff.mp hstep
    exact h.accept hr

/-! ## What breaks them -/

theorem not_wellFormed_connect (h : QueueInv w L) (hgets : Gets root w addr)
    (hbad : w.state self = .connecting ∨ (w.queue self).head ≠ none)
    (hc : connect root w self addr = some (st, w')) : ¬ WellFormedQueues w' := by
  rintro ⟨L', hrep, hone, hconn, hlist⟩
  obtain ⟨hself, hcase⟩ := connect_cases hc
  rcases hcase with ⟨-, hnot, -⟩ | ⟨-, -, t, nodes, hdr, link, hne, htarget, hlisten, happ, rfl⟩
  · exact hnot hgets
  · obtain ⟨vn, hvn⟩ := connectTarget_mpData htarget
    have ht := h.queues.target vn t hvn
    rcases hbad with hself' | hhead
    · obtain ⟨s, hs, hx⟩ := (h.connecting self hself).mpr hself'
      have hrept := (hrep t ht).1
      dsimp only at hrept
      rw [update_self] at hrept
      by_cases hst : s = t
      · subst hst
        exact (h.queues.rep s hs).append_again hx (h.queues.length_lt hs) happ hrept
      · have hreps := (hrep s hs).1
        dsimp only at hreps
        rw [update_of_ne hst] at hreps
        have hmemt := (h.queues.rep t ht).append_mem happ hrept
        have hmems := (h.queues.rep t ht).mem_other (h.queues.rep s hs) hx
          (fun y hy hyt => hst (h.queues.one s hs t ht y hy hyt)) happ hreps
        exact hst (hone s hs t ht self hmems hmemt)
    · have hreps := (hrep self hself).1
      dsimp only at hreps
      rw [update_of_ne hne.symm] at hreps
      have hnil : L' self ≠ [] := by
        intro e
        rw [hreps.head, e] at hhead
        exact hhead rfl
      have hstate : (w.setState self .connecting).state self = .listening := hlist self hself hnil
      rw [state_setState, if_pos rfl] at hstate
      cases hstate

theorem not_wellFormed_listen (h : QueueInv w L) (hbad : w.state self = .connecting)
    (hl : listen w self = some (st, w')) : ¬ WellFormedQueues w' := by
  rintro ⟨L', hrep, -, hconn, -⟩
  obtain ⟨hself, rfl⟩ := listen_cases hl
  obtain ⟨s, hs, hx⟩ := (h.connecting self hself).mpr hbad
  have hL : L s = L' s := (h.queues.rep s hs).unique (hrep s hs).1
  have hstate := (hconn self hself).mp ⟨s, hs, hL ▸ hx⟩
  rw [state_setState, if_pos rfl] at hstate
  cases hstate

theorem keepsQueues_of_wellFormed {op : ConnOp} (h : QueueInv w L)
    (hstep : connStep root w op = some w') (hwf : WellFormedQueues w') : KeepsQueues root w op := by
  cases op with
  | create | bind | accept => trivial
  | listen self =>
    obtain ⟨r, hr, rfl⟩ := Option.map_eq_some_iff.mp hstep
    exact fun hbad => not_wellFormed_listen h hbad hr hwf
  | connect self addr =>
    obtain ⟨r, hr, rfl⟩ := Option.map_eq_some_iff.mp hstep
    intro hgets
    refine ⟨fun hbad => ?_, by_contra fun hbad => ?_⟩
    · exact not_wellFormed_connect h hgets (Or.inl hbad) hr hwf
    · exact not_wellFormed_connect h hgets (Or.inr hbad) hr hwf

end

/-- The accept queues are well formed after every call of a run from the start exactly if no call of it
is a `connect` to a listening socket by a socket that is on a queue or has sockets on its own, or a
`listen` by a socket that is on a queue. -/
theorem queues_wellFormed_iff (root : ℕ) {w t : ConnWorld} {ops : List ConnOp} (hw : w.Start)
    (h : run (connStep root) w ops = some t) :
    Meets (connStep root) (fun w op => ∀ w', connStep root w op = some w' → WellFormedQueues w') w ops ↔
      Meets (connStep root) (KeepsQueues root) w ops := by
  refine meets_iff_of_run (I := fun w => ∃ L, QueueInv w L) (fun s op s' hs hs' => ?_)
    (fun s op s' hs hD hs' => QueueInv.step hs hD hs') ⟨_, QueueInv.start hw⟩ h
  constructor
  · intro hwf
    obtain ⟨L, hL⟩ := hs
    exact keepsQueues_of_wellFormed hL hs' (hwf s' hs')
  · intro hkeeps s'' hs''
    obtain ⟨L', hL'⟩ := QueueInv.step hs hkeeps hs''
    exact hL'.wellFormed

def connStart : ConnWorld :=
  { sockStart with peer := fun _ => none, queue := fun _ => .init, link := fun _ => .init, next := 0 }

def connectOnce : List ConnOp := [.create, .bind 0 pathA, .listen 0, .create, .connect 1 pathA]

theorem queues_wellFormed_sample :
    connStart.Start ∧ ∃ t, run (connStep 0) connStart connectOnce = some t ∧
      Meets (connStep 0) (fun w op => ∀ w', connStep 0 w op = some w' → WellFormedQueues w')
        connStart connectOnce := by
  obtain ⟨t, ht, hkeeps⟩ : ∃ t ∈ run (connStep 0) connStart connectOnce,
      Meets (connStep 0) (KeepsQueues 0) connStart connectOnce := by decide +kernel
  exact ⟨⟨rfl, fun _ => rfl⟩, t, ht, (queues_wellFormed_iff 0 ⟨rfl, fun _ => rfl⟩ ht).mpr hkeeps⟩

/-- A client that connects again is linked to itself, and its queue has the length 2. -/
theorem connect_again_breaks_queue :
    ∃ t, run (connStep 0) connStart (connectOnce ++ [.connect 1 pathA]) = some t ∧
      t.queue 0 = ⟨2, some 1, some 1⟩ ∧ t.link 1 = ⟨some 1, some 1⟩ ∧ ¬ WellFormedQueues t := by
  obtain ⟨t, ht, hnext, hqueue, hlink⟩ :
      ∃ t ∈ run (connStep 0) connStart (connectOnce ++ [.connect 1 pathA]),
        t.next = 2 ∧ t.queue 0 = ⟨2, some 1, some 1⟩ ∧ t.link 1 = ⟨some 1, some 1⟩ := by
    decide +kernel
  refine ⟨t, ht, hqueue, hlink, ?_⟩
  rintro ⟨L, hrep, -⟩
  have hrep := (hrep 0 (by rw [hnext]; decide)).1
  have hhead := hrep.head
  have hlinked := hrep.linked
  rw [hqueue] at hhead
  cases hL : L 0 with
  | nil =>
    rw [hL] at hhead
    cases hhead
  | cons x l =>
    rw [hL] at hhead hlinked
    obtain rfl : 1 = x := Option.some.inj hhead
    have hfirst := hlinked.1
    rw [hlink] at hfirst
    cases hfirst

end LykOS.Sockets
