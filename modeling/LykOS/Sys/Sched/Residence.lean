import LykOS.Sys.Sched.Steps

/-!
# Residence of threads

Runs in which threads are created and enqueued once, and the cores yield with `THREAD_STATE_READY` or
`THREAD_STATE_AWAITING_CLEANUP`, in any interleaving. A `Trace` records these events next to the state.

Every enqueued thread is at exactly one place, a thread that was switched out to be cleaned up is on no core
again, idle threads are in no queue, and threads leave the run queue in the order in which they entered it
(`threads_reside`).
-/

namespace LykOS.Sched

open Dlist Run Function List

variable {κ π : Type} [DecidableEq κ] [DecidableEq π]

structure Trace (κ π : Type) where
  state : State κ π
  submitted : List Thread
  exited : List Thread
  entered : List Thread
  left : List Thread

/-- The thread whose creator calls `sched_enqueue` for it. -/
def submits : Op κ π → Option Thread
  | .schedEnqueue t => some t
  | _ => none

/-- The thread that is switched out to be cleaned up. -/
def exits (s : State κ π) : Op κ π → Option Thread
  | .switch c => match (s.cpu c).phase with
    | .chosen status next =>
      if status = .awaitingCleanup ∧ next ≠ (s.cpu c).curr then some (s.cpu c).curr else none
    | _ => none
  | _ => none

/-- The thread for which `sched_enqueue` is called. -/
def enters (idle : κ ↪ Thread) (s : State κ π) : Op κ π → Option Thread
  | .schedEnqueue t => some t
  | .drop c => match (s.cpu c).phase with
    | .switched prev => if s.status prev = .ready ∧ prev ≠ idle c then some prev else none
    | _ => none
  | _ => none

/-- The thread that `sched_next` takes from the run queue. -/
def leaves (s : State κ π) : Op κ π → Option Thread
  | .take _ _ => (popHead s.runQueue s.link).1
  | _ => none

def traceStep (idle : κ ↪ Thread) (w : Trace κ π) (o : Op κ π) : Option (Trace κ π) :=
  (step idle w.state o).map fun s =>
    ⟨s, w.submitted ++ (submits o).toList, w.exited ++ (exits w.state o).toList,
      w.entered ++ (enters idle w.state o).toList, w.left ++ (leaves w.state o).toList⟩

/-- The statuses with which the cores of the run yield. -/
def YieldStatus (status : Status) : Prop := status = .ready ∨ status = .awaitingCleanup

/-- A thread is created at a fresh address and enqueued once, by its creator; a core yields with one of
two statuses and then goes through the steps of `sched_yield`. -/
def Legal (idle : κ ↪ Thread) (w : Trace κ π) : Op κ π → Prop
  | .threadNew t _ => t ∉ w.state.threads
  | .schedEnqueue t => t ∈ w.state.threads ∧ t ∉ w.submitted ∧ ∀ c, t ≠ idle c
  | .take c status => (w.state.cpu c).phase = .running ∧ YieldStatus status
  | .switch c => ∃ status next, (w.state.cpu c).phase = .chosen status next
  | .drop c => ∃ prev, (w.state.cpu c).phase = .switched prev

instance (status : Status) : Decidable (YieldStatus status) :=
  inferInstanceAs (Decidable (status = .ready ∨ status = .awaitingCleanup))

instance (p : Phase) : Decidable (∃ status next, p = .chosen status next) :=
  match p with
  | .chosen status next => isTrue ⟨status, next, rfl⟩
  | .running => isFalse fun ⟨_, _, h⟩ => nomatch h
  | .switched _ => isFalse fun ⟨_, _, h⟩ => nomatch h

instance (p : Phase) : Decidable (∃ prev, p = .switched prev) :=
  match p with
  | .switched prev => isTrue ⟨prev, rfl⟩
  | .running => isFalse fun ⟨_, h⟩ => nomatch h
  | .chosen _ _ => isFalse fun ⟨_, h⟩ => nomatch h

instance [Fintype κ] (idle : κ ↪ Thread) (w : Trace κ π) (o : Op κ π) : Decidable (Legal idle w o) :=
  match o with
  | .threadNew t _ => inferInstanceAs (Decidable (t ∉ w.state.threads))
  | .schedEnqueue t =>
    inferInstanceAs (Decidable (t ∈ w.state.threads ∧ t ∉ w.submitted ∧ ∀ c, t ≠ idle c))
  | .take c status =>
    inferInstanceAs (Decidable ((w.state.cpu c).phase = .running ∧ YieldStatus status))
  | .switch c =>
    inferInstanceAs (Decidable (∃ status next, (w.state.cpu c).phase = .chosen status next))
  | .drop c => inferInstanceAs (Decidable (∃ prev, (w.state.cpu c).phase = .switched prev))

/-- At how many places a thread is: how often it is in the run queue and in the queue of the reaper, and
with how many cores. -/
def places [Fintype κ] (s : State κ π) (t : Thread) : ℕ :=
  (members s.runQueue s.link).count t + (members s.threadsQueue s.link).count t +
    (Finset.univ.filter fun c => t ∈ (s.cpu c).occupants).card

structure Resides [Fintype κ] (idle : κ ↪ Thread) (w : Trace κ π) : Prop where
  one : ∀ t ∈ w.submitted, places w.state t = 1
  exited : ∀ t ∈ w.exited, (∀ c, t ≠ idle c) →
    ∀ c, (w.state.cpu c).curr ≠ t ∧ ∀ status, (w.state.cpu c).phase ≠ .chosen status t
  idle : ∀ c, idle c ∉ members w.state.runQueue w.state.link ∧
    idle c ∉ members w.state.threadsQueue w.state.link
  fifo : w.entered = w.left ++ members w.state.runQueue w.state.link

/-! ## Invariant -/

def Located (s : State κ π) (q r : List Thread) (t : Thread) : Prop :=
  t ∈ q ∨ t ∈ r ∨ ∃ c, t ∈ (s.cpu c).occupants

/-- A core yields with one of the statuses, and the thread it drops has it. -/
def PhaseOk (idle : Thread) (status : Thread → Status) : Phase → Prop
  | .running => True
  | .chosen st _ => YieldStatus st
  | .switched prev => prev ≠ idle → YieldStatus (status prev)

structure TraceInv (idle : κ ↪ Thread) (w : Trace κ π) (q r : List Thread) : Prop where
  inv : Inv idle w.state q r
  submitted : ∀ t, (∀ c, t ≠ idle c) → (t ∈ w.submitted ↔ Located w.state q r t)
  notIdle : ∀ t ∈ w.submitted, ∀ c, t ≠ idle c
  exited : ∀ t ∈ w.exited, (∀ c, t ≠ idle c) →
    t ∈ r ∨ ∃ c, (w.state.cpu c).phase = .switched t ∧ w.state.status t = .awaitingCleanup
  phase : ∀ c, PhaseOk (idle c) w.state.status (w.state.cpu c).phase
  fifo : w.entered = w.left ++ q

section TraceInv

variable {idle : κ ↪ Thread} {w : Trace κ π} {s s' : State κ π} {q r : List Thread} {t : Thread}

omit [DecidableEq κ] in
theorem booted_traceInv (h : Booted idle s) : TraceInv idle ⟨s, [], [], [], []⟩ [] [] where
  inv := h.inv
  submitted t ht := by
    refine iff_of_false not_mem_nil ?_
    rintro (hm | hm | ⟨c, hm⟩)
    · cases hm
    · cases hm
    · rw [h.cpu c] at hm
      exact ht c (mem_singleton.mp hm)
  notIdle t ht := nomatch ht
  exited t ht := nomatch ht
  phase c := by rw [h.cpu c]; trivial
  fifo := rfl

omit [DecidableEq π] in
theorem exists_occupant_update {c : κ} {cpu : Cpu} (hcpu : s'.cpu = update s.cpu c cpu) :
    (∃ d, t ∈ (s'.cpu d).occupants) ↔
      t ∈ cpu.occupants ∨ ∃ d, d ≠ c ∧ t ∈ (s.cpu d).occupants := by
  rw [hcpu]
  exact Function.exists_update_iff s.cpu fun _ cpu => t ∈ cpu.occupants

omit [DecidableEq π] in
theorem exists_occupant (c : κ) : (∃ d, t ∈ (s.cpu d).occupants) ↔
    t ∈ (s.cpu c).occupants ∨ ∃ d, d ≠ c ∧ t ∈ (s.cpu d).occupants :=
  exists_occupant_update (update_eq_self c s.cpu).symm

omit [DecidableEq π] in
theorem located_update {c : κ} {cpu : Cpu} {q' r' : List Thread}
    (hcpu : s'.cpu = update s.cpu c cpu)
    (h : t ∈ q ∨ t ∈ r ∨ t ∈ (s.cpu c).occupants ↔ t ∈ q' ∨ t ∈ r' ∨ t ∈ cpu.occupants) :
    Located s q r t ↔ Located s' q' r' t := by
  have hassoc : ∀ a b x z : Prop, a ∨ b ∨ x ∨ z ↔ (a ∨ b ∨ x) ∨ z := fun a b x z => by
    rw [or_assoc, or_assoc]
  rw [Located, Located, exists_occupant c, exists_occupant_update hcpu, hassoc, hassoc, h]

end TraceInv

section Steps

variable {idle : κ ↪ Thread} {w : Trace κ π} {q r : List Thread}

/-- The step has a result, for which the invariant holds again. -/
def Keeps (idle : κ ↪ Thread) (w : Trace κ π) (o : Op κ π) : Prop :=
  ∃ w', traceStep idle w o = some w' ∧ ∃ q' r', TraceInv idle w' q' r'

theorem switched_mem {cpu : Cpu} {prev : Thread} (h : cpu.phase = .switched prev) :
    prev ∈ cpu.occupants := by
  simp [Cpu.occupants, h]

theorem PhaseOk.congr {i : Thread} {st st' : Thread → Status} {p : Phase} (h : PhaseOk i st p)
    (hsame : ∀ t, p = .switched t → st' t = st t) : PhaseOk i st' p := by
  cases p with
  | running => trivial
  | chosen status next => exact h
  | switched prev =>
    rw [PhaseOk, hsame prev rfl]
    exact h

theorem TraceInv.threadNew (h : TraceInv idle w q r) {t : Thread} (ht : t ∉ w.state.threads)
    (parent : π) : Keeps idle w (.threadNew t parent) := by
  obtain ⟨s', hs', hinv, hcpu, -, -, hstatus⟩ := h.inv.threadNew ht parent
  have hne : ∀ c prev, (w.state.cpu c).phase = .switched prev → prev ≠ t := fun c prev hphase e =>
    ht (e ▸ h.inv.onCore c prev (switched_mem hphase))
  refine ⟨⟨s', w.submitted ++ [], w.exited ++ [], w.entered ++ [], w.left ++ []⟩,
    by rw [traceStep, step, hs']; rfl, q, r, ?_⟩
  simp only [List.append_nil]
  refine ⟨hinv, fun u hu => ?_, h.notIdle, fun u hu hidle => ?_, fun c => ?_, h.fifo⟩
  · rw [h.submitted u hu, Located, Located, hcpu]
  · rcases h.exited u hu hidle with hm | ⟨c, hphase, hst⟩
    · exact Or.inl hm
    · refine Or.inr ⟨c, ?_, ?_⟩
      · dsimp only
        rw [hcpu]
        exact hphase
      · exact (hstatus u (hne c u hphase)).trans hst
  · dsimp only
    rw [hcpu]
    exact (h.phase c).congr fun prev hphase => hstatus prev (hne c prev hphase)

theorem TraceInv.schedEnqueue (h : TraceInv idle w q r) {t : Thread} (ht : t ∈ w.state.threads)
    (hsub : t ∉ w.submitted) (hidle : ∀ c, t ≠ idle c) : Keeps idle w (.schedEnqueue t) := by
  rw [h.submitted t hidle] at hsub
  obtain ⟨hq, hr, hocc⟩ : t ∉ q ∧ t ∉ r ∧ ∀ c, t ∉ (w.state.cpu c).occupants :=
    ⟨fun hm => hsub (Or.inl hm), fun hm => hsub (Or.inr (Or.inl hm)),
      fun c hm => hsub (Or.inr (Or.inr ⟨c, hm⟩))⟩
  obtain ⟨s', hs', hinv, hcpu, -, hstatus, -⟩ := h.inv.schedEnqueue ht hidle hq hr hocc
  refine ⟨⟨s', w.submitted ++ [t], w.exited ++ [], w.entered ++ [t], w.left ++ []⟩,
    by rw [traceStep, step, hs']; rfl, q ++ [t], r, ?_⟩
  simp only [List.append_nil]
  refine ⟨hinv, fun u hu => ?_, fun u hu c => ?_, ?_, ?_, ?_⟩
  · rw [Located, hcpu, mem_append, mem_append, h.submitted u hu, Located]
    exact Iff.of_eq (by ac_rfl)
  · rcases mem_append.mp hu with hu | hu
    · exact h.notIdle u hu c
    · rw [mem_singleton.mp hu]
      exact hidle c
  · dsimp only
    rw [hcpu, hstatus]
    exact h.exited
  · dsimp only
    rw [hcpu, hstatus]
    exact h.phase
  · rw [h.fifo, append_assoc]

/-- A step of one core: the other cores keep the threads they drop, with their statuses. -/
theorem TraceInv.core (h : TraceInv idle w q r) {c : κ} {cpu : Cpu} {s' : State κ π}
    {q' r' x entered left : List Thread} (hinv : Inv idle s' q' r')
    (hcpu : s'.cpu = update w.state.cpu c cpu)
    (hloc : ∀ t, (∀ c, t ≠ idle c) → (t ∈ q ∨ t ∈ r ∨ t ∈ (w.state.cpu c).occupants ↔
      t ∈ q' ∨ t ∈ r' ∨ t ∈ cpu.occupants))
    (hstatus : ∀ d, d ≠ c → ∀ t, (w.state.cpu d).phase = .switched t →
      s'.status t = w.state.status t)
    (hphase : PhaseOk (idle c) s'.status cpu.phase) (hr : ∀ t ∈ r, t ∈ r')
    (hgone : ∀ t, t ≠ idle c → (w.state.cpu c).phase = .switched t →
      w.state.status t = .awaitingCleanup → t ∈ r')
    (hx : ∀ t ∈ x, cpu.phase = .switched t ∧ s'.status t = .awaitingCleanup)
    (hfifo : entered = left ++ q') :
    TraceInv idle ⟨s', w.submitted, w.exited ++ x, entered, left⟩ q' r' where
  inv := hinv
  submitted t ht := by
    rw [h.submitted t ht]
    exact located_update hcpu (hloc t ht)
  notIdle := h.notIdle
  exited t ht hidle := by
    dsimp only
    rw [hcpu]
    rcases mem_append.mp ht with ht | ht
    · rcases h.exited t ht hidle with hm | ⟨d, hd, hstd⟩
      · exact Or.inl (hr t hm)
      · by_cases hdc : d = c
        · subst hdc
          exact Or.inl (hgone t (hidle d) hd hstd)
        · refine Or.inr ⟨d, ?_, (hstatus d hdc t hd).trans hstd⟩
          rwa [update_of_ne hdc]
    · refine Or.inr ⟨c, ?_, (hx t ht).2⟩
      rw [update_self]
      exact (hx t ht).1
  phase := by
    dsimp only
    rw [hcpu]
    exact (Function.forall_update_iff w.state.cpu fun d cpu =>
      PhaseOk (idle d) s'.status cpu.phase).mpr ⟨hphase, fun d hd => (h.phase d).congr (hstatus d hd)⟩
  fifo := hfifo

theorem TraceInv.take (h : TraceInv idle w q r) {c : κ} (hphase : (w.state.cpu c).phase = .running)
    {status : Status} (hstatus : YieldStatus status) :
    Keeps idle w (.take c status) := by
  obtain ⟨s', hs', -, hst, hcase⟩ := h.inv.take hphase status
  have hocc : (w.state.cpu c).occupants = [(w.state.cpu c).curr] := by rw [Cpu.occupants, hphase]
  have hleave : leaves w.state (.take c status) = q.head? := by
    rw [leaves, popHead_fst, h.inv.run.head]
  have hstep : traceStep idle w (.take c status) = some ⟨s', w.submitted ++ [], w.exited ++ [],
      w.entered ++ [], w.left ++ q.head?.toList⟩ := by
    rw [traceStep, step, hs', hleave]
    rfl
  rw [List.append_nil, List.append_nil w.entered] at hstep
  have hgone : ∀ t, t ≠ idle c → (w.state.cpu c).phase = .switched t →
      w.state.status t = .awaitingCleanup → t ∈ r := fun t _ hd => by
    rw [hphase] at hd
    cases hd
  rcases hcase with ⟨x, q', rfl, hinv, hcpu, -⟩ | ⟨rfl, hinv, hcpu, -⟩
  · refine ⟨_, hstep, q', r, h.core hinv hcpu (fun t _ => ?_) (fun _ _ t _ => congrFun hst t)
      hstatus (fun t ht => ht) hgone (fun t ht => absurd ht not_mem_nil) ?_⟩
    · rw [hocc]
      simp only [Cpu.occupants, mem_cons, not_mem_nil, or_false]
      exact Iff.of_eq (by ac_rfl)
    · rw [h.fifo, append_assoc]
      rfl
  · refine ⟨_, hstep, [], r, h.core hinv hcpu (fun t ht => ?_) (fun _ _ t _ => congrFun hst t)
      hstatus (fun t ht => ht) hgone (fun t ht => absurd ht not_mem_nil) ?_⟩
    · rw [hocc]
      simp [Cpu.occupants, ht c]
    · rw [h.fifo, append_assoc]
      rfl

end Steps

section Switch

variable {idle : κ ↪ Thread} {w : Trace κ π} {q r : List Thread}

omit [DecidableEq κ] in
theorem TraceInv.exited_off (h : TraceInv idle w q r) {t : Thread} (ht : t ∈ w.exited)
    (hidle : ∀ c, t ≠ idle c) {c : κ} (hocc : t ∈ (w.state.cpu c).occupants) :
    (w.state.cpu c).phase = .switched t ∧ w.state.status t = .awaitingCleanup := by
  rcases h.exited t ht hidle with hm | ⟨d, hphase, hstatus⟩
  · exact absurd hm (h.inv.placed.off c t hocc).2
  · obtain rfl := h.inv.placed.one d c t (switched_mem hphase) hocc
    exact ⟨hphase, hstatus⟩

omit [DecidableEq κ] in
theorem TraceInv.dropped_ne (h : TraceInv idle w q r) {c d : κ} (hd : d ≠ c) {t u : Thread}
    (hphase : (w.state.cpu d).phase = .switched t) (hu : u ∈ (w.state.cpu c).occupants) :
    t ≠ u := by
  rintro rfl
  exact hd (h.inv.placed.one d c t (switched_mem hphase) hu)

theorem TraceInv.switch (h : TraceInv idle w q r) {c : κ} {status : Status} {next : Thread}
    (hphase : (w.state.cpu c).phase = .chosen status next) : Keeps idle w (.switch c) := by
  obtain ⟨s', hs', hinv, -, -, hcase⟩ := h.inv.switch hphase
  have hocc : (w.state.cpu c).occupants = [(w.state.cpu c).curr, next] := by
    rw [Cpu.occupants, hphase]
  have hnext : next ∈ (w.state.cpu c).occupants := by rw [hocc]; simp
  have hcurr := (w.state.cpu c).curr_mem
  have hst : YieldStatus status := by
    have hok := h.phase c
    rwa [hphase] at hok
  have hstep : ∀ {e : Option Thread}, exits w.state (.switch c : Op κ π) = e →
      traceStep idle w (.switch c) =
        some ⟨s', w.submitted, w.exited ++ e.toList, w.entered, w.left⟩ := by
    rintro _ rfl
    rw [traceStep, step, hs']
    simp [submits, enters, leaves]
  have hgone : ∀ t, t ≠ idle c → (w.state.cpu c).phase = .switched t →
      w.state.status t = .awaitingCleanup → t ∈ r := fun t _ hd => by
    rw [hphase] at hd
    cases hd
  rcases hcase with ⟨heq, hidle, hcpu, hstatus⟩ | ⟨hne, hcpu, hstatus⟩
  · have hexit : exits w.state (.switch c : Op κ π) = none := by simp [exits, hphase, heq]
    refine ⟨_, hstep hexit, q, r, h.core hinv hcpu (fun t _ => ?_) (fun d hd t ht => ?_) trivial
      (fun t ht => ht) hgone (fun t ht => absurd ht not_mem_nil) h.fifo⟩
    · rw [hocc, ← heq]
      simp [Cpu.occupants]
    · rw [hstatus, update_of_ne (h.dropped_ne hd ht hnext)]
  · have hexit : exits w.state (.switch c : Op κ π) =
        if status = .awaitingCleanup then some (w.state.cpu c).curr else none := by
      simp [exits, hphase, hne]
    have hown : s'.status (w.state.cpu c).curr = status := by rw [hstatus, update_self]
    refine ⟨_, hstep hexit, q, r, h.core hinv hcpu (fun t _ => ?_) (fun d hd t ht => ?_)
      (fun _ => ?_) (fun t ht => ht) hgone (fun t ht => ?_) h.fifo⟩
    · rw [hocc]
      simp only [Cpu.occupants, mem_cons, not_mem_nil, or_false]
      exact Iff.of_eq (by ac_rfl)
    · rw [hstatus, update_of_ne (h.dropped_ne hd ht hcurr), update_of_ne (h.dropped_ne hd ht hnext)]
    · rw [hown]
      exact hst
    · -- the thread that is switched out here
      split_ifs at ht with hawait
      · obtain rfl : t = (w.state.cpu c).curr := mem_singleton.mp ht
        exact ⟨rfl, hown.trans hawait⟩
      · cases ht

theorem TraceInv.drop (h : TraceInv idle w q r) {c : κ} {prev : Thread}
    (hphase : (w.state.cpu c).phase = .switched prev) : Keeps idle w (.drop c) := by
  obtain ⟨s', hs', -, hstatus, hcpu, hcase⟩ := h.inv.drop hphase
  have hocc : (w.state.cpu c).occupants = [(w.state.cpu c).curr, prev] := by
    rw [Cpu.occupants, hphase]
  have hst : prev ≠ idle c → YieldStatus (w.state.status prev) := by
    have hok := h.phase c
    rwa [hphase] at hok
  -- where the thread has gone, by what is entered
  have hrest : ∀ {e : Option Thread} {q' r' : List Thread}, Inv idle s' q' r' →
      enters idle w.state (.drop c : Op κ π) = e → q' = q ++ e.toList → (∀ t ∈ r, t ∈ r') →
      (∀ t, (∀ c, t ≠ idle c) → (t ∈ q ∨ t ∈ r ∨ t ∈ [(w.state.cpu c).curr, prev] ↔
        t ∈ q' ∨ t ∈ r' ∨ t ∈ [(w.state.cpu c).curr])) →
      (prev ≠ idle c → w.state.status prev = .awaitingCleanup → prev ∈ r') →
      Keeps idle w (.drop c) := by
    intro e q' r' hinv he hq' hr' hloc hdead
    have hstep : traceStep idle w (.drop c) = some ⟨s', w.submitted ++ [], w.exited ++ [],
        w.entered ++ e.toList, w.left ++ []⟩ := by
      rw [traceStep, step, hs', he]
      rfl
    rw [List.append_nil, List.append_nil w.left] at hstep
    refine ⟨_, hstep, q', r', h.core hinv hcpu ?_ (fun _ _ t _ => congrFun hstatus t) trivial hr'
      (fun t ht hd hdead' => ?_) (fun t ht => absurd ht not_mem_nil) ?_⟩
    · rwa [hocc]
    · rw [hphase] at hd
      cases hd
      exact hdead ht hdead'
    · rw [h.fifo, hq', append_assoc]
  rcases hcase with ⟨hne, hready, hinv, -⟩ | ⟨hne, hawait, hinv, -⟩ | ⟨hwhy, hinv, -⟩
  · refine hrest (e := some prev) hinv (by simp [enters, hphase, hready, hne]) rfl (fun t ht => ht)
      (fun t _ => ?_) fun _ ha => ?_
    · simp only [mem_append, mem_cons, not_mem_nil, or_false]
      exact Iff.of_eq (by ac_rfl)
    · rw [hready] at ha
      cases ha
  · refine hrest (e := none) hinv (by simp [enters, hphase, hawait]) (List.append_nil q).symm
      (fun t ht => mem_append_left _ ht) (fun t _ => ?_) fun _ _ => by simp
    simp only [mem_append, mem_cons, not_mem_nil, or_false]
    exact Iff.of_eq (by ac_rfl)
  · obtain rfl : prev = idle c := by
      by_contra hne
      rcases hst hne with hs | hs <;> rcases hwhy with hw | hw | hw
      all_goals first | exact hne hw | (rw [hs] at hw; cases hw)
    refine hrest (e := none) hinv (by simp [enters, hphase]) (List.append_nil q).symm
      (fun t ht => ht) (fun t ht => ?_) fun hne => absurd rfl hne
    simp [ht c]

theorem TraceInv.step (h : TraceInv idle w q r) {o : Op κ π} (ho : Legal idle w o) :
    Keeps idle w o := by
  cases o with
  | threadNew t parent => exact h.threadNew ho parent
  | schedEnqueue t => exact h.schedEnqueue ho.1 ho.2.1 ho.2.2
  | take c status => exact h.take ho.1 ho.2
  | switch c =>
    obtain ⟨status, next, hphase⟩ := ho
    exact h.switch hphase
  | drop c =>
    obtain ⟨prev, hphase⟩ := ho
    exact h.drop hphase

theorem TraceInv.run (h : TraceInv idle w q r) {ops : List (Op κ π)}
    (hops : Meets (traceStep idle) (Legal idle) w ops) :
    ∃ w', run (traceStep idle) w ops = some w' ∧ ∃ q' r', TraceInv idle w' q' r' := by
  refine run_total_of_meets (fun w o hw ho => ?_) ⟨q, r, h⟩ hops
  obtain ⟨q, r, hw⟩ := hw
  exact hw.step ho

omit [DecidableEq κ] in
theorem Inv.places_eq_one [Fintype κ] {s : State κ π} (h : Inv idle s q r) {t : Thread}
    (ht : Located s q r t) : places s t = 1 := by
  have hcard : ∀ c, t ∈ (s.cpu c).occupants →
      (Finset.univ.filter fun c => t ∈ (s.cpu c).occupants) = {c} := by
    intro c hc
    ext d
    simp only [Finset.mem_filter, Finset.mem_univ, true_and, Finset.mem_singleton]
    exact ⟨fun hd => h.placed.one d c t hd hc, fun hd => hd ▸ hc⟩
  have hempty : (∀ c, t ∉ (s.cpu c).occupants) →
      (Finset.univ.filter fun c => t ∈ (s.cpu c).occupants) = ∅ :=
    fun hc => Finset.filter_eq_empty_iff.mpr fun c _ => hc c
  rw [places, h.run.members, h.reaper.members]
  rcases ht with hm | hm | ⟨c, hm⟩
  · have hr := h.placed.apart t hm
    have hcpu : ∀ c, t ∉ (s.cpu c).occupants := fun c hc => (h.placed.off c t hc).1 hm
    rw [count_eq_one_of_mem h.run.linked.nodup hm, count_eq_zero_of_not_mem hr, hempty hcpu]
    rfl
  · have hq : t ∉ q := fun hq => h.placed.apart t hq hm
    have hcpu : ∀ c, t ∉ (s.cpu c).occupants := fun c hc => (h.placed.off c t hc).2 hm
    rw [count_eq_zero_of_not_mem hq, count_eq_one_of_mem h.reaper.linked.nodup hm, hempty hcpu]
    rfl
  · obtain ⟨hq, hr⟩ := h.placed.off c t hm
    rw [count_eq_zero_of_not_mem hq, count_eq_zero_of_not_mem hr, hcard c hm]
    rfl

omit [DecidableEq κ] in
theorem TraceInv.resides [Fintype κ] (h : TraceInv idle w q r) : Resides idle w where
  one t ht := h.inv.places_eq_one ((h.submitted t (h.notIdle t ht)).mp ht)
  exited t ht hidle c := by
    refine ⟨fun e => ?_, fun status hphase => ?_⟩
    · have hocc : t ∈ (w.state.cpu c).occupants := e ▸ (w.state.cpu c).curr_mem
      have hok := h.inv.phase c
      rw [Cpu.Ok, (h.exited_off ht hidle hocc).1] at hok
      exact hok e.symm
    · have hocc : t ∈ (w.state.cpu c).occupants := by simp [Cpu.occupants, hphase]
      rw [(h.exited_off ht hidle hocc).1] at hphase
      cases hphase
  idle c := by
    rw [h.inv.run.members, h.inv.reaper.members]
    exact h.inv.placed.idle c
  fifo := by
    rw [h.inv.run.members]
    exact h.fifo

end Switch

/-- In any interleaving of the cores, every enqueued thread is at exactly one place, a thread that was
switched out to be cleaned up is not on a core again, idle threads are in no queue, and the threads leave
the run queue in the order in which they entered it. -/
theorem threads_reside [Fintype κ] (idle : κ ↪ Thread) (s : State κ π) (hboot : Booted idle s)
    (ops : List (Op κ π)) (hops : Meets (traceStep idle) (Legal idle) ⟨s, [], [], [], []⟩ ops) :
    ∃ w, run (traceStep idle) ⟨s, [], [], [], []⟩ ops = some w ∧ Resides idle w := by
  obtain ⟨w, hrun, q, r, hw⟩ := (booted_traceInv hboot).run hops
  exact ⟨w, hrun, hw.resides⟩

def sampleThread : Thread := ⟨0x3000, by decide⟩

def sampleOps : List (Op Bool Unit) :=
  [.threadNew sampleThread (), .schedEnqueue sampleThread,
    .threadNew ⟨0x4000, by decide⟩ (), .take true .ready, .schedEnqueue ⟨0x4000, by decide⟩,
    .take false .ready, .switch false, .switch true, .drop true, .take true .awaitingCleanup,
    .drop false, .take false .ready, .switch true, .switch false, .drop false, .drop true]

theorem threads_reside_sample :
    ∃ w, run (traceStep twoIdle) ⟨twoCores, [], [], [], []⟩ sampleOps = some w ∧ Resides twoIdle w ∧
      w.exited = [⟨0x3000, by decide⟩] := by
  obtain ⟨w, hw, hres⟩ := threads_reside twoIdle twoCores twoCores_booted sampleOps (by decide)
  refine ⟨w, hw, hres, ?_⟩
  cases hw
  rfl

end LykOS.Sched
