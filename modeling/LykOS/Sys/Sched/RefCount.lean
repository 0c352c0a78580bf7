import LykOS.Sys.Sched.Residence

/-!
# Reference counts of threads

The field `ref_count` of a thread is meant to be the number of reasons to keep it: it is scheduled, it is
in the thread list of its process, it is in the wait queue of a mutex. But `thread_new` does not count the
process, `sched_enqueue` and `sched_next` each count the scheduler, and nothing ever calls
`thread_unref`. So the count of a thread is the number of times it has entered and left the run queue
together, and it is the number of reasons only while the thread runs for the first time
(`ref_count_exact_iff`).
-/

namespace LykOS.Sched

open Dlist Run List

variable {κ π : Type} [DecidableEq κ] [DecidableEq π] [Fintype κ]

/-- The steps of the kernel: a core yields with any status, and `sched_enqueue` is called for a thread
that is at no place, which is new or has been blocked. -/
def Proper (idle : κ ↪ Thread) (w : Trace κ π) : Op κ π → Prop
  | .threadNew t _ => t ∉ w.state.threads
  | .schedEnqueue t => t ∈ w.state.threads ∧ (∀ c, t ≠ idle c) ∧ places w.state t = 0
  | .take c _ => (w.state.cpu c).phase = .running
  | .switch c => ∃ status next, (w.state.cpu c).phase = .chosen status next
  | .drop c => ∃ prev, (w.state.cpu c).phase = .switched prev

instance (idle : κ ↪ Thread) (w : Trace κ π) (o : Op κ π) : Decidable (Proper idle w o) :=
  match o with
  | .threadNew t _ => inferInstanceAs (Decidable (t ∉ w.state.threads))
  | .schedEnqueue t =>
    inferInstanceAs (Decidable (t ∈ w.state.threads ∧ (∀ c, t ≠ idle c) ∧ places w.state t = 0))
  | .take c _ => inferInstanceAs (Decidable ((w.state.cpu c).phase = .running))
  | .switch c =>
    inferInstanceAs (Decidable (∃ status next, (w.state.cpu c).phase = .chosen status next))
  | .drop c => inferInstanceAs (Decidable (∃ prev, (w.state.cpu c).phase = .switched prev))

def OnCore (s : State κ π) (t : Thread) : Prop := ∃ c, t ∈ (s.cpu c).occupants

instance (s : State κ π) (t : Thread) : Decidable (OnCore s t) :=
  inferInstanceAs (Decidable (∃ c, t ∈ (s.cpu c).occupants))

/-- The documented reasons to keep a thread: it is scheduled, that is, in the run queue or with a core, and
it is in the thread list of its process. -/
def reasons (s : State κ π) (t : Thread) : ℕ :=
  (if t ∈ members s.runQueue s.link ∨ OnCore s t then 1 else 0) +
    if t ∈ members (s.procThreads (s.parentProc t)) s.linkProc then 1 else 0

/-! ## What the counts are -/

/-- A thread is counted each time it enters the run queue, and each time it leaves it. -/
structure CountInv (idle : κ ↪ Thread) (w : Trace κ π) (q r : List Thread) : Prop where
  inv : Inv idle w.state q r
  fifo : w.entered = w.left ++ q
  count : ∀ t ∈ w.state.threads,
    w.state.refCount t = UInt64.ofNat (w.entered.count t + w.left.count t)
  entered : ∀ t ∈ w.entered, t ∈ w.state.threads

section CountInv

variable {idle : κ ↪ Thread} {w : Trace κ π} {q r : List Thread}

variable {t : Thread} {s : State κ π} {o : Op κ π}

omit [DecidableEq κ] [Fintype κ] in
theorem booted_countInv (h : Booted idle s) :
    CountInv idle ⟨s, [], [], [], []⟩ [] [] where
  inv := h.inv
  fifo := rfl
  count t ht := h.refCount t ht
  entered _ ht := nomatch ht

/-- The step has a result, for which the invariant holds again. -/
def KeepsCount (idle : κ ↪ Thread) (w : Trace κ π) (o : Op κ π) : Prop :=
  ∃ w', traceStep idle w o = some w' ∧ ∃ q' r', CountInv idle w' q' r'

omit [Fintype κ] in
theorem CountInv.keep (h : CountInv idle w q r) {s' : State κ π} {q' r' : List Thread}
    (hs' : step idle w.state o = some s') (hinv : Inv idle s' q' r')
    (hq : (leaves w.state o).toList ++ q' = q ++ (enters idle w.state o).toList)
    (hthreads : s'.threads = w.state.threads)
    (henter : ∀ t ∈ enters idle w.state o, t ∈ w.state.threads)
    (hcount : ∀ t, s'.refCount t = w.state.refCount t +
      UInt64.ofNat ((enters idle w.state o).toList.count t + (leaves w.state o).toList.count t)) :
    KeepsCount idle w o := by
  refine ⟨_, by rw [traceStep, hs']; rfl, q', r', hinv, ?_, fun t ht => ?_, fun t ht => ?_⟩
  · rw [h.fifo, append_assoc, append_assoc, hq]
  · dsimp only at ht ⊢
    rw [hthreads] at ht
    rw [hcount, h.count t ht, ← UInt64.ofNat_add, count_append, count_append]
    congr 1
    omega
  · dsimp only at ht ⊢
    rw [hthreads]
    rcases mem_append.mp ht with ht | ht
    · exact h.entered t ht
    · exact henter t (Option.mem_toList.mp ht)

omit [DecidableEq κ] in
theorem Inv.nowhere (h : Inv idle s q r) (ht : places s t = 0) :
    t ∉ q ∧ t ∉ r ∧ ∀ c, t ∉ (s.cpu c).occupants := by
  have hno : ¬ Located s q r t := fun hl => by
    rw [h.places_eq_one hl] at ht
    cases ht
  exact ⟨fun hm => hno (Or.inl hm), fun hm => hno (Or.inr (Or.inl hm)),
    fun c hm => hno (Or.inr (Or.inr ⟨c, hm⟩))⟩

theorem update_add_one (f : Thread → UInt64) (x t : Thread) :
    Function.update f x (f x + 1) t = f t + UInt64.ofNat ([x].count t) := by
  by_cases htx : t = x
  · subst htx
    simp
  · rw [Function.update_of_ne htx, count_eq_zero_of_not_mem (by simpa using htx)]
    simp

omit [Fintype κ] in
theorem CountInv.keep_still (h : CountInv idle w q r) {s' : State κ π} {r' : List Thread}
    (hs' : step idle w.state o = some s') (hinv : Inv idle s' q r')
    (henter : enters idle w.state o = none) (hleave : leaves w.state o = none)
    (hthreads : s'.threads = w.state.threads) (hcount : s'.refCount = w.state.refCount) :
    KeepsCount idle w o := by
  refine h.keep hs' hinv ?_ hthreads (fun t ht => ?_) fun t => ?_
  · rw [henter, hleave]
    exact (List.append_nil q).symm
  · rw [henter] at ht
    cases ht
  · rw [henter, hleave, hcount]
    exact (UInt64.add_zero _).symm

omit [Fintype κ] in
theorem CountInv.threadNew (h : CountInv idle w q r) (ht : t ∉ w.state.threads) (parent : π) :
    KeepsCount idle w (.threadNew t parent) := by
  obtain ⟨s', hs', hinv, -, hthreads, hcount, -⟩ := h.inv.threadNew ht parent
  -- the new thread has not been in the run queue
  have hent : t ∉ w.entered := fun hm => ht (h.entered t hm)
  have hleft : t ∉ w.left := fun hm => hent (by rw [h.fifo]; exact mem_append_left _ hm)
  refine ⟨⟨s', w.submitted ++ [], w.exited ++ [], w.entered ++ [], w.left ++ []⟩,
    by rw [traceStep, Sched.step, hs']; rfl, q, r, hinv, ?_, fun u hu => ?_, fun u hu => ?_⟩
  · simpa using h.fifo
  · dsimp only at hu ⊢
    rw [hthreads, mem_append, mem_singleton] at hu
    rw [List.append_nil, List.append_nil, hcount]
    by_cases hut : u = t
    · subst hut
      rw [Function.update_self, count_eq_zero_of_not_mem hent, count_eq_zero_of_not_mem hleft]
      rfl
    · rw [Function.update_of_ne hut]
      exact h.count u (hu.resolve_right hut)
  · dsimp only at hu ⊢
    rw [hthreads]
    rw [List.append_nil] at hu
    exact mem_append_left _ (h.entered u hu)

omit [Fintype κ] in
theorem CountInv.take (h : CountInv idle w q r) {c : κ}
    (hphase : (w.state.cpu c).phase = .running) (status : Status) :
    KeepsCount idle w (.take c status) := by
  obtain ⟨s', hs', hthreads, -, hcase⟩ := h.inv.take hphase status
  have hleave : leaves w.state (.take c status) = q.head? := by
    rw [leaves, popHead_fst, h.inv.run.head]
  rcases hcase with ⟨x, q', rfl, hinv, -, hcount⟩ | ⟨rfl, hinv, -, hcount⟩
  · refine h.keep hs' hinv ?_ hthreads (fun u hu => absurd hu (Option.some_ne_none u).symm) fun u => ?_
    · rw [hleave]
      exact (List.append_nil _).symm
    · rw [hcount, hleave, update_add_one]
      simp [enters]
  · exact h.keep_still hs' hinv rfl hleave hthreads hcount

omit [Fintype κ] in
theorem CountInv.drop (h : CountInv idle w q r) {c : κ} {prev : Thread}
    (hphase : (w.state.cpu c).phase = .switched prev) : KeepsCount idle w (.drop c) := by
  obtain ⟨s', hs', hthreads, -, -, hcase⟩ := h.inv.drop hphase
  have hprev : prev ∈ w.state.threads := h.inv.onCore c prev (switched_mem hphase)
  rcases hcase with ⟨hne, hready, hinv, hcount⟩ | ⟨hne, hawait, hinv, hcount⟩ | ⟨hwhy, hinv, hcount⟩
  · have henter : enters idle w.state (.drop c : Op κ π) = some prev := by
      simp [enters, hphase, hready, hne]
    refine h.keep hs' hinv (by rw [henter]; rfl) hthreads (fun u hu => ?_) fun u => ?_
    · rw [henter] at hu
      exact Option.some.inj hu ▸ hprev
    · rw [hcount, henter]
      exact update_add_one _ prev u
  · have henter : enters idle w.state (.drop c : Op κ π) = none := by
      simp [enters, hphase, hawait]
    exact h.keep_still hs' hinv henter rfl hthreads hcount
  · have henter : enters idle w.state (.drop c : Op κ π) = none := by
      rcases hwhy with hw | hw | hw <;> simp [enters, hphase, hw]
    exact h.keep_still hs' hinv henter rfl hthreads hcount

theorem CountInv.step (h : CountInv idle w q r) (ho : Proper idle w o) : KeepsCount idle w o := by
  cases o with
  | threadNew t parent => exact h.threadNew ho parent
  | schedEnqueue t =>
    obtain ⟨ht, hidle, hplaces⟩ := ho
    obtain ⟨hq, hr, hocc⟩ := h.inv.nowhere hplaces
    obtain ⟨s', hs', hinv, -, hthreads, -, hcount⟩ := h.inv.schedEnqueue ht hidle hq hr hocc
    refine h.keep hs' hinv rfl hthreads (fun u hu => Option.some.inj hu ▸ ht) fun u => ?_
    rw [hcount]
    exact update_add_one _ t u
  | take c status => exact h.take ho status
  | switch c =>
    obtain ⟨status, next, hphase⟩ := ho
    obtain ⟨s', hs', hinv, hthreads, hcount, -⟩ := h.inv.switch hphase
    exact h.keep_still hs' hinv rfl rfl hthreads hcount
  | drop c =>
    obtain ⟨prev, hphase⟩ := ho
    exact h.drop hphase

theorem CountInv.run (h : CountInv idle w q r) {ops : List (Op κ π)}
    (hops : Meets (traceStep idle) (Proper idle) w ops) :
    ∃ w', run (traceStep idle) w ops = some w' ∧ ∃ q' r', CountInv idle w' q' r' := by
  refine run_total_of_meets (fun w o hw ho => ?_) ⟨q, r, h⟩ hops
  obtain ⟨q, r, hw⟩ := hw
  exact hw.step ho

/-! ## When the counts are right -/

omit [DecidableEq κ] [Fintype κ] in
theorem Inv.mem_proc (h : Inv idle s q r) (ht : t ∈ s.threads) :
    t ∈ members (s.procThreads (s.parentProc t)) s.linkProc := by
  rw [(h.procs _).members]
  exact mem_filter.mpr ⟨ht, decide_eq_true rfl⟩

omit [DecidableEq κ] in
theorem CountInv.exact_iff (h : CountInv idle w q r) (ht : t ∈ w.state.threads) :
    w.state.refCount t = UInt64.ofNat (reasons w.state t) ↔
      OnCore w.state t ∧ w.left.count t % 2 ^ 63 = 1 := by
  have hcount : w.state.refCount t = UInt64.ofNat (2 * w.left.count t + q.count t) := by
    rw [h.count t ht, h.fifo, count_append]
    congr 1
    omega
  rw [hcount, reasons, if_pos (h.inv.mem_proc ht), h.inv.run.members, ← UInt64.toNat_inj,
    UInt64.toNat_ofNat', UInt64.toNat_ofNat']
  by_cases hcore : OnCore w.state t
  · obtain ⟨c, hc⟩ := hcore
    have hq : t ∉ q := (h.inv.placed.off c t hc).1
    have hon : OnCore w.state t := ⟨c, hc⟩
    rw [if_pos (Or.inr hon), count_eq_zero_of_not_mem hq]
    simp only [hon, true_and]
    omega
  · by_cases hq : t ∈ q
    · rw [if_pos (Or.inl hq), count_eq_one_of_mem h.inv.run.linked.nodup hq]
      simp only [hcore, false_and, iff_false]
      omega
    · rw [if_neg (by simp [hq, hcore]), count_eq_zero_of_not_mem hq]
      simp only [hcore, false_and, iff_false]
      omega

end CountInv

/-- After any steps, the count of a thread is the number of times it has entered and left the run queue,
and this is the number of reasons to keep it exactly if it is with a core and has left the run queue
once, up to an overflow of the count. -/
theorem ref_count_exact_iff (idle : κ ↪ Thread) (s : State κ π) (hboot : Booted idle s)
    (ops : List (Op κ π)) (hops : Meets (traceStep idle) (Proper idle) ⟨s, [], [], [], []⟩ ops) :
    ∃ w, run (traceStep idle) ⟨s, [], [], [], []⟩ ops = some w ∧ ∀ t ∈ w.state.threads,
      w.state.refCount t = UInt64.ofNat (w.entered.count t + w.left.count t) ∧
      (w.state.refCount t = UInt64.ofNat (reasons w.state t) ↔
        OnCore w.state t ∧ w.left.count t % 2 ^ 63 = 1) := by
  obtain ⟨w, hrun, q, r, hw⟩ := (booted_countInv hboot).run hops
  exact ⟨w, hrun, fun t ht => ⟨hw.count t ht, hw.exact_iff ht⟩⟩

def firstRun : List (Op Bool Unit) :=
  [.threadNew sampleThread (), .schedEnqueue sampleThread, .take true .ready, .switch true, .drop true]

theorem ref_count_exact_sample :
    ∃ w, run (traceStep twoIdle) ⟨twoCores, [], [], [], []⟩ firstRun = some w ∧
      w.state.refCount ⟨0x3000, by decide⟩ = UInt64.ofNat (reasons w.state ⟨0x3000, by decide⟩) := by
  obtain ⟨w, hw, hiff⟩ := ref_count_exact_iff twoIdle twoCores twoCores_booted firstRun (by decide)
  have hend : ∀ w ∈ run (traceStep twoIdle) ⟨twoCores, [], [], [], []⟩ firstRun,
      ⟨0x3000, by decide⟩ ∈ w.state.threads ∧ OnCore w.state ⟨0x3000, by decide⟩ ∧
        w.left.count ⟨0x3000, by decide⟩ = 1 := by decide
  obtain ⟨ht, hcore, hleft⟩ := hend w hw
  exact ⟨w, hw, (hiff _ ht).2.mpr ⟨hcore, by omega⟩⟩

/-- A thread that is preempted and runs again has four references for two reasons. -/
theorem ref_count_grows :
    Meets (traceStep twoIdle) (Proper twoIdle) ⟨twoCores, [], [], [], []⟩
        (firstRun ++ [.take true .ready, .switch true, .drop true, .take true .ready, .switch true]) ∧
      (run (traceStep twoIdle) ⟨twoCores, [], [], [], []⟩
        (firstRun ++ [.take true .ready, .switch true, .drop true, .take true .ready, .switch true])).map
        (fun w => (w.state.refCount ⟨0x3000, by decide⟩, reasons w.state ⟨0x3000, by decide⟩)) =
        some (4, 2) := by
  constructor <;> decide

end LykOS.Sched
