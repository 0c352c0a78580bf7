import LykOS.Sys.Sched.Model

/-!
# Where the threads are

Each thread is at one place at most: in the run queue, in the queue of the reaper, or with one core.
`Placed` says this of any placement, and `Placed.move` is the one step that keeps it: a core exchanges
threads with the queues. `Inv` adds what ties the placement to the lists in memory, and there is one lemma
for each step: it has a result, keeps `Inv`, and changes this and no more.
-/

namespace LykOS.Sched

open Dlist Function List

variable {κ π : Type} [DecidableEq κ] [DecidableEq π]

/-! ## Placements -/

/-- Each thread is at one place at most: in the run queue `q`, with the reaper in `r`, or with one of the
cores. Idle threads are with their own core only. -/
structure Placed {α : Type*} (idle : κ ↪ α) (occ : κ → List α) (q r : List α) : Prop where
  apart : ∀ t ∈ q, t ∉ r
  off : ∀ c, ∀ t ∈ occ c, t ∉ q ∧ t ∉ r
  one : ∀ c d t, t ∈ occ c → t ∈ occ d → c = d
  home : ∀ c d, idle c ∈ occ d → c = d
  idle : ∀ c, idle c ∉ q ∧ idle c ∉ r

section Placed

variable {α : Type*} {idle : κ ↪ α} {occ : κ → List α} {q r q' r' : List α}

omit [DecidableEq κ] in
theorem Placed.not_mem_added (h : Placed idle occ q r) {c d : κ} {l l' : List α}
    (hl : ∀ t ∈ l', t ∈ l ∨ t ∈ occ c ∧ t ≠ idle c) (hd : d ≠ c) {t : α} (ht : t ∈ occ d)
    (hn : t ∉ l) : t ∉ l' := by
  intro hm
  rcases hl t hm with hm | ⟨hm, -⟩
  · exact hn hm
  · exact hd (h.one d c t ht hm)

omit [DecidableEq κ] in
theorem Placed.idle_not_mem_added (h : Placed idle occ q r) {c d : κ} {l l' : List α}
    (hl : ∀ t ∈ l', t ∈ l ∨ t ∈ occ c ∧ t ≠ idle c) (hn : idle d ∉ l) : idle d ∉ l' := by
  intro hm
  rcases hl _ hm with hm | ⟨hm, hne⟩
  · exact hn hm
  · exact hne (congrArg idle (h.home d c hm))

/-- Threads are moved between the core `c` and the queues, but for idle threads. -/
theorem Placed.move (h : Placed idle occ q r) {c : κ} {o : List α}
    (ho : ∀ t ∈ o, (t ∈ occ c ∨ t ∈ q ∨ t = idle c) ∧ t ∉ q' ∧ t ∉ r')
    (hq : ∀ t ∈ q', t ∈ q ∨ t ∈ occ c ∧ t ≠ idle c) (hr : ∀ t ∈ r', t ∈ r ∨ t ∈ occ c ∧ t ≠ idle c)
    (hapart : ∀ t ∈ q', t ∉ r') : Placed idle (update occ c o) q' r' where
  apart := hapart
  off := (Function.forall_update_iff occ fun _ o => ∀ t ∈ o, t ∉ q' ∧ t ∉ r').mpr
    ⟨fun t ht => (ho t ht).2, fun d hd t ht => ⟨h.not_mem_added hq hd ht (h.off d t ht).1,
      h.not_mem_added hr hd ht (h.off d t ht).2⟩⟩
  one := by
    have hmoved : ∀ d, d ≠ c → ∀ t ∈ occ d, t ∉ o := by
      intro d hd t ht hto
      rcases (ho t hto).1 with hc | hq | rfl
      · exact hd (h.one d c t ht hc)
      · exact (h.off d t ht).1 hq
      · exact hd (h.home c d ht).symm
    intro d e t
    revert d
    refine (Function.forall_update_iff occ fun d o' => t ∈ o' → _ → d = e).mpr
      ⟨?_, fun d hd htd => ?_⟩ <;> revert e
    · refine (Function.forall_update_iff occ fun e o' => t ∈ o → t ∈ o' → c = e).mpr
        ⟨fun _ _ => rfl, fun e he hto hte => absurd hto (hmoved e he t hte)⟩
    · refine (Function.forall_update_iff occ fun e o' => t ∈ o' → d = e).mpr
        ⟨fun hto => absurd hto (hmoved d hd t htd), fun e _ hte => h.one d e t htd hte⟩
  home d := by
    refine (Function.forall_update_iff occ fun e o' => idle d ∈ o' → d = e).mpr
      ⟨fun hd => ?_, fun e _ he => h.home d e he⟩
    rcases (ho _ hd).1 with hc | hq | heq
    · exact h.home d c hc
    · exact absurd hq (h.idle d).1
    · exact idle.injective heq
  idle d := ⟨h.idle_not_mem_added hq (h.idle d).1, h.idle_not_mem_added hr (h.idle d).2⟩

omit [DecidableEq κ] in
theorem Placed.enter (h : Placed idle occ q r) {t : α} (ht : ∀ c, t ≠ idle c) (hr : t ∉ r)
    (hocc : ∀ c, t ∉ occ c) : Placed idle occ (q ++ [t]) r := by
  have hmem : ∀ u, u ∈ q ++ [t] ↔ u ∈ q ∨ u = t := fun u => by
    rw [mem_append, mem_singleton]
  refine ⟨fun u hu => ?_, fun c u hu => ⟨fun hm => ?_, (h.off c u hu).2⟩, h.one, h.home,
    fun c => ⟨fun hm => ?_, (h.idle c).2⟩⟩
  · rcases (hmem u).mp hu with hu | rfl
    · exact h.apart u hu
    · exact hr
  · rcases (hmem u).mp hm with hm | rfl
    · exact (h.off c u hu).1 hm
    · exact hocc c hu
  · rcases (hmem _).mp hm with hm | heq
    · exact (h.idle c).1 hm
    · exact ht c heq.symm

end Placed

/-! ## Invariant -/

/-- A core takes its current thread again only if that is its idle thread, and does not drop it. -/
def Cpu.Ok (idle : Thread) (cpu : Cpu) : Prop :=
  match cpu.phase with
  | .running => True
  | .chosen _ next => next = cpu.curr → next = idle
  | .switched prev => prev ≠ cpu.curr

/-- What holds between the steps: the queues are the lists `q` and `r`, the threads are placed, each core
knows its current thread as its own, and the thread lists of the processes are complete. -/
structure Inv (idle : κ ↪ Thread) (s : State κ π) (q r : List Thread) : Prop where
  run : Rep s.runQueue s.link q
  reaper : Rep s.threadsQueue s.link r
  placed : Placed idle (fun c => (s.cpu c).occupants) q r
  core : ∀ c, s.assignedCore (s.cpu c).curr = some c
  phase : ∀ c, (s.cpu c).Ok (idle c)
  queued : ∀ t, t ∈ q ∨ t ∈ r → t ∈ s.threads
  onCore : ∀ c, ∀ t ∈ (s.cpu c).occupants, t ∈ s.threads
  idle : ∀ c, idle c ∈ s.threads
  nodup : s.threads.Nodup
  procs : ∀ p, Rep (s.procThreads p) s.linkProc (s.threads.filter (s.parentProc · = p))

theorem Cpu.curr_mem (cpu : Cpu) : cpu.curr ∈ cpu.occupants := by
  unfold Cpu.occupants
  cases cpu.phase <;> exact mem_cons_self

section Inv

variable {idle : κ ↪ Thread} {s s' : State κ π} {q r q' r' : List Thread}

omit [DecidableEq κ] in
theorem Booted.inv (h : Booted idle s) : Inv idle s [] [] where
  run := by rw [h.runQueue]; exact Rep.init _
  reaper := by rw [h.threadsQueue]; exact Rep.init _
  placed := by
    have hocc : ∀ c, (s.cpu c).occupants = [idle c] := fun c => by rw [h.cpu c]; rfl
    refine ⟨fun _ ht => (nomatch ht), fun _ _ _ => ⟨not_mem_nil, not_mem_nil⟩,
      fun c d t hc hd => ?_, fun c d hd => ?_, fun _ => ⟨not_mem_nil, not_mem_nil⟩⟩
    · rw [hocc, mem_singleton] at hc hd
      exact idle.injective (hc.symm.trans hd)
    · rw [hocc, mem_singleton] at hd
      exact idle.injective hd
  core c := by rw [h.cpu c]; exact h.core c
  phase c := by rw [h.cpu c]; trivial
  queued t ht := by rcases ht with ht | ht <;> cases ht
  onCore c t ht := by
    rw [h.cpu c] at ht
    exact mem_singleton.mp ht ▸ h.created c
  idle := h.created
  nodup := h.nodup
  procs := h.procs

variable {t : Thread} {c : κ}

omit [DecidableEq κ] in
theorem Inv.append_run (h : Inv idle s q r) (hq : t ∉ q) (hr : t ∉ r) :
    ∃ hdr link, append s.runQueue s.link t = some (hdr, link) ∧ Rep hdr link (q ++ [t]) ∧
      Rep s.threadsQueue link r := by
  have hlen := Lists.length_succ_lt h.run.linked.nodup hq
  obtain ⟨hdr, link, happ, hrep, hframe⟩ := h.run.append hq hlen
  refine ⟨hdr, link, happ, hrep, h.reaper.congr fun u hu => hframe u (fun hm => ?_) fun e => ?_⟩
  · exact h.placed.apart u hm hu
  · exact hr (e ▸ hu)

omit [DecidableEq κ] in
theorem Inv.append_reaper (h : Inv idle s q r) (hq : t ∉ q) (hr : t ∉ r) :
    ∃ hdr link, append s.threadsQueue s.link t = some (hdr, link) ∧ Rep hdr link (r ++ [t]) ∧
      Rep s.runQueue link q := by
  have hlen := Lists.length_succ_lt h.reaper.linked.nodup hr
  obtain ⟨hdr, link, happ, hrep, hframe⟩ := h.reaper.append hr hlen
  refine ⟨hdr, link, happ, hrep, h.run.congr fun u hu => hframe u (h.placed.apart u hu) fun e => ?_⟩
  exact hq (e ▸ hu)

/-! ## Steps -/

/-- The parts of the state that a core does not change. -/
structure SameThreads (s s' : State κ π) : Prop where
  threads : s'.threads = s.threads
  parentProc : s'.parentProc = s.parentProc
  linkProc : s'.linkProc = s.linkProc
  procThreads : s'.procThreads = s.procThreads

theorem Inv.move (h : Inv idle s q r) (hsame : SameThreads s s') {cpu : Cpu}
    (hcpu : s'.cpu = update s.cpu c cpu)
    (hcore : ∀ d, d ≠ c → s'.assignedCore (s.cpu d).curr = s.assignedCore (s.cpu d).curr)
    (hown : s'.assignedCore cpu.curr = some c) (hok : cpu.Ok (idle c))
    (hrun : Rep s'.runQueue s'.link q') (hreaper : Rep s'.threadsQueue s'.link r')
    (ho : ∀ t ∈ cpu.occupants, (t ∈ (s.cpu c).occupants ∨ t ∈ q ∨ t = idle c) ∧ t ∉ q' ∧ t ∉ r')
    (hq : ∀ t ∈ q', t ∈ q ∨ t ∈ (s.cpu c).occupants ∧ t ≠ idle c)
    (hr : ∀ t ∈ r', t ∈ r ∨ t ∈ (s.cpu c).occupants ∧ t ≠ idle c) (hapart : ∀ t ∈ q', t ∉ r') :
    Inv idle s' q' r' where
  run := hrun
  reaper := hreaper
  placed := by
    have hmove := h.placed.move ho hq hr hapart
    have hocc : (fun d => (s'.cpu d).occupants) =
        update (fun d => (s.cpu d).occupants) c cpu.occupants := by
      rw [hcpu]
      exact Function.comp_update Cpu.occupants s.cpu c cpu
    rwa [hocc]
  core := by
    rw [hcpu]
    refine (Function.forall_update_iff s.cpu fun d cpu => s'.assignedCore cpu.curr = some d).mpr
      ⟨hown, fun d hd => ?_⟩
    rw [hcore d hd]
    exact h.core d
  phase := by
    rw [hcpu]
    exact (Function.forall_update_iff s.cpu fun d cpu => cpu.Ok (idle d)).mpr
      ⟨hok, fun d _ => h.phase d⟩
  queued t ht := by
    rw [hsame.threads]
    rcases ht with ht | ht
    · exact (hq t ht).elim (fun hm => h.queued t (Or.inl hm)) fun hm => h.onCore c t hm.1
    · exact (hr t ht).elim (fun hm => h.queued t (Or.inr hm)) fun hm => h.onCore c t hm.1
  onCore := by
    rw [hcpu, hsame.threads]
    refine (Function.forall_update_iff s.cpu fun _ cpu => ∀ t ∈ cpu.occupants, t ∈ s.threads).mpr
      ⟨fun t ht => ?_, fun d _ => h.onCore d⟩
    rcases (ho t ht).1 with hm | hm | rfl
    · exact h.onCore c t hm
    · exact h.queued t (Or.inl hm)
    · exact h.idle c
  idle d := by
    rw [hsame.threads]
    exact h.idle d
  nodup := by
    rw [hsame.threads]
    exact h.nodup
  procs p := by
    rw [hsame.threads, hsame.parentProc, hsame.linkProc, hsame.procThreads]
    exact h.procs p

omit [DecidableEq κ] in
theorem Inv.curr_ne (h : Inv idle s q r) {d : κ} (hdc : d ≠ c) (ht : t ∈ (s.cpu c).occupants) :
    (s.cpu d).curr ≠ t := by
  rintro rfl
  exact hdc (h.placed.one d c _ (s.cpu d).curr_mem ht)

omit [DecidableEq κ] in
theorem Inv.append_proc (h : Inv idle s q r) (ht : t ∉ s.threads) (parent : π) :
    ∃ hdr linkProc,
      append (s.procThreads parent) (update s.linkProc t .init) t = some (hdr, linkProc) ∧
      ∀ p, Rep (update s.procThreads parent hdr p) linkProc
        ((s.threads ++ [t]).filter (update s.parentProc t parent · = p)) := by
  have hne : ∀ u ∈ s.threads, u ≠ t := fun u hu e => ht (e ▸ hu)
  have hprocs : ∀ p, Rep (s.procThreads p) (update s.linkProc t .init)
      (s.threads.filter (s.parentProc · = p)) := fun p =>
    (h.procs p).congr fun u hu => update_of_ne (hne u (mem_of_mem_filter hu)) _ _
  have htp : t ∉ s.threads.filter (s.parentProc · = parent) := fun hm => ht (mem_of_mem_filter hm)
  obtain ⟨hdr, linkProc, happ, hrep, hframe⟩ := (hprocs parent).append htp
    (Lists.length_succ_lt (hprocs parent).linked.nodup htp)
  refine ⟨hdr, linkProc, happ, fun p => ?_⟩
  have hold : s.threads.filter (update s.parentProc t parent · = p) =
      s.threads.filter (s.parentProc · = p) :=
    filter_congr fun u hu => by rw [update_of_ne (hne u hu)]
  rw [filter_append, hold]
  by_cases hp : p = parent
  · subst hp
    simpa using hrep
  · have hp' : parent ≠ p := fun e => hp e.symm
    -- no thread has two processes, so the append does not touch the list of another one
    have hother : Rep (s.procThreads p) linkProc (s.threads.filter (s.parentProc · = p)) := by
      refine (hprocs p).congr fun u hu => hframe u (fun hm => hp ?_) (hne u (mem_of_mem_filter hu))
      have h1 := of_decide_eq_true (mem_filter.mp hu).2
      have h2 := of_decide_eq_true (mem_filter.mp hm).2
      exact h1.symm.trans h2
    simpa [update_of_ne hp, hp'] using hother

omit [DecidableEq κ] in
theorem Inv.threadNew (h : Inv idle s q r) (ht : t ∉ s.threads) (parent : π) :
    ∃ s', threadNew s t parent = some s' ∧ Inv idle s' q r ∧ s'.cpu = s.cpu ∧
      s'.threads = s.threads ++ [t] ∧ s'.refCount = update s.refCount t 0 ∧
      ∀ u, u ≠ t → s'.status u = s.status u := by
  have hne : ∀ u ∈ s.threads, u ≠ t := fun u hu e => ht (e ▸ hu)
  obtain ⟨hdr, linkProc, happ, hprocs⟩ := h.append_proc ht parent
  have hnew : Sched.threadNew s t parent = some { s with
      threads := s.threads ++ [t]
      status := update s.status t .awaitingCleanup
      assignedCore := update s.assignedCore t none
      refCount := update s.refCount t 0
      parentProc := update s.parentProc t parent
      link := update s.link t .init
      linkProc := linkProc
      procThreads := update s.procThreads parent hdr } := by
    simp [Sched.threadNew, ht, happ]
  refine ⟨_, hnew, ⟨?_, ?_, h.placed, fun c => ?_, h.phase,
    fun u hu => mem_append_left _ (h.queued u hu),
    fun c u hu => mem_append_left _ (h.onCore c u hu), fun c => mem_append_left _ (h.idle c),
    ?_, hprocs⟩, rfl, rfl, rfl, fun u hu => update_of_ne hu _ _⟩
  · exact h.run.congr fun u hu => update_of_ne (hne u (h.queued u (Or.inl hu))) _ _
  · exact h.reaper.congr fun u hu => update_of_ne (hne u (h.queued u (Or.inr hu))) _ _
  · dsimp only
    rw [update_of_ne (hne _ (h.onCore c _ (s.cpu c).curr_mem))]
    exact h.core c
  · exact nodup_append.mpr ⟨h.nodup, nodup_singleton t, fun u hu v hv =>
      mem_singleton.mp hv ▸ hne u hu⟩

omit [DecidableEq κ] in
theorem Inv.schedEnqueue (h : Inv idle s q r) (ht : t ∈ s.threads) (hidle : ∀ c, t ≠ idle c)
    (hq : t ∉ q) (hr : t ∉ r) (hcpu : ∀ c, t ∉ (s.cpu c).occupants) :
    ∃ s', schedEnqueue s t = some s' ∧ Inv idle s' (q ++ [t]) r ∧ s'.cpu = s.cpu ∧
      s'.threads = s.threads ∧ s'.status = s.status ∧
      s'.refCount = update s.refCount t (s.refCount t + 1) := by
  obtain ⟨hdr, link, happ, hrun, hreaper⟩ := h.append_run hq hr
  have henq : Sched.schedEnqueue s t =
      some (threadRef { s with runQueue := hdr, link := link } t) := by
    simp [Sched.schedEnqueue, happ]
  refine ⟨_, henq, ⟨hrun, hreaper, h.placed.enter hidle hr hcpu,
    h.core, h.phase, fun u hu => ?_, h.onCore, h.idle, h.nodup, h.procs⟩, rfl, rfl, rfl, rfl⟩
  rw [mem_append, mem_singleton] at hu
  rcases hu with (hu | rfl) | hu
  · exact h.queued u (Or.inl hu)
  · exact ht
  · exact h.queued u (Or.inr hu)

theorem Inv.take (h : Inv idle s q r) (hphase : (s.cpu c).phase = .running) (status : Status) :
    ∃ s', yieldTake idle s c status = some s' ∧ s'.threads = s.threads ∧ s'.status = s.status ∧
      ((∃ x q', q = x :: q' ∧ Inv idle s' q' r ∧
          s'.cpu = update s.cpu c ⟨(s.cpu c).curr, .chosen status x⟩ ∧
          s'.refCount = update s.refCount x (s.refCount x + 1)) ∨
        (q = [] ∧ Inv idle s' q r ∧
          s'.cpu = update s.cpu c ⟨(s.cpu c).curr, .chosen status (idle c)⟩ ∧
          s'.refCount = s.refCount)) := by
  have hcurr := (s.cpu c).curr_mem
  cases q with
  | nil =>
    have hpop : popHead s.runQueue s.link = (none, s.runQueue, s.link) := by
      rw [popHead, show s.runQueue.head = none from h.run.head]
    refine ⟨s.setCpu c ⟨(s.cpu c).curr, .chosen status (idle c)⟩, ?_, rfl, rfl, Or.inr ⟨rfl, ?_, rfl, rfl⟩⟩
    · simp [yieldTake, hphase, schedNext, hpop, h.core c]
    · refine h.move ⟨rfl, rfl, rfl, rfl⟩ rfl (fun d _ => rfl) (h.core c) (fun _ => rfl) h.run h.reaper
        (fun t ht => ?_) (fun t ht => Or.inl ht) (fun t ht => Or.inl ht) h.placed.apart
      rcases mem_pair.mp ht with rfl | rfl
      · exact ⟨Or.inl hcurr, h.placed.off c _ hcurr⟩
      · exact ⟨Or.inr (Or.inr rfl), h.placed.idle c⟩
  | cons x q' =>
    obtain ⟨hdr, link, hpop, hrun, hframe⟩ := h.run.popHead
    have hxr : x ∉ r := h.placed.apart x mem_cons_self
    have hsub : ∀ t ∈ q', t ∈ x :: q' := fun t ht => mem_cons_of_mem _ ht
    have hxc : x ≠ (s.cpu c).curr := by
      rintro rfl
      exact (h.placed.off c _ hcurr).1 mem_cons_self
    refine ⟨(threadRef { s with runQueue := hdr, link := link } x).setCpu c
      ⟨(s.cpu c).curr, .chosen status x⟩, ?_, rfl, rfl, Or.inl ⟨x, q', rfl, ?_, rfl, rfl⟩⟩
    · simp [yieldTake, hphase, schedNext, hpop]
    · refine h.move ⟨rfl, rfl, rfl, rfl⟩ rfl (fun d _ => rfl) (h.core c) (fun e => absurd e hxc) hrun
        (h.reaper.congr fun u hu => hframe u fun hm => h.placed.apart u (hsub u hm) hu)
        (fun t ht => ?_) (fun t ht => Or.inl (hsub t ht)) (fun t ht => Or.inl ht)
        fun t ht => h.placed.apart t (hsub t ht)
      rcases mem_pair.mp ht with rfl | rfl
      · have hoff := h.placed.off c _ hcurr
        exact ⟨Or.inl hcurr, fun hm => hoff.1 (hsub _ hm), hoff.2⟩
      · exact ⟨Or.inr (Or.inl mem_cons_self), (nodup_cons.mp h.run.linked.nodup).1, hxr⟩

theorem Inv.switch (h : Inv idle s q r) {status : Status} {next : Thread}
    (hphase : (s.cpu c).phase = .chosen status next) :
    ∃ s', yieldSwitch s c = some s' ∧ Inv idle s' q r ∧ s'.threads = s.threads ∧
      s'.refCount = s.refCount ∧
      ((next = (s.cpu c).curr ∧ next = idle c ∧
          s'.cpu = update s.cpu c ⟨(s.cpu c).curr, .running⟩ ∧
          s'.status = update s.status next .running) ∨
        (next ≠ (s.cpu c).curr ∧
          s'.cpu = update s.cpu c ⟨next, .switched (s.cpu c).curr⟩ ∧
          s'.status = update (update s.status next .running)
            (s.cpu c).curr status)) := by
  have hocc : (s.cpu c).occupants = [(s.cpu c).curr, next] := by rw [Cpu.occupants, hphase]
  have hcurr : (s.cpu c).curr ∈ (s.cpu c).occupants := (s.cpu c).curr_mem
  have hnext : next ∈ (s.cpu c).occupants := by rw [hocc]; simp
  by_cases heq : (s.cpu c).curr = next
  · have hswitch : yieldSwitch s c =
        some ({ s with status := update s.status next .running }.setCpu c
          ⟨(s.cpu c).curr, .running⟩) := by
      simp [yieldSwitch, hphase, heq]
    refine ⟨_, hswitch, ?_, rfl, rfl, Or.inl ⟨heq.symm, ?_, rfl, rfl⟩⟩
    · refine h.move ⟨rfl, rfl, rfl, rfl⟩ rfl (fun d _ => rfl) (h.core c) trivial h.run h.reaper
        (fun t ht => ?_) (fun t ht => Or.inl ht) (fun t ht => Or.inl ht) h.placed.apart
      obtain rfl := mem_singleton.mp ht
      exact ⟨Or.inl hcurr, h.placed.off c _ hcurr⟩
    · have hok := h.phase c
      rw [Cpu.Ok, hphase] at hok
      exact hok heq.symm
  · have hswitch : yieldSwitch s c =
        some ({ s with
          assignedCore := update
            (update s.assignedCore next (s.assignedCore (s.cpu c).curr)) (s.cpu c).curr none
          status := update (update s.status next .running) (s.cpu c).curr status
          }.setCpu c ⟨next, .switched (s.cpu c).curr⟩) := by
      simp [yieldSwitch, hphase, heq]
    refine ⟨_, hswitch, ?_, rfl, rfl, Or.inr ⟨fun e => heq e.symm, rfl, rfl⟩⟩
    refine h.move ⟨rfl, rfl, rfl, rfl⟩ rfl (fun d hd => ?_) ?_ heq h.run h.reaper (fun t ht => ?_)
      (fun t ht => Or.inl ht) (fun t ht => Or.inl ht) h.placed.apart
    · simp only [State.setCpu, update_of_ne (h.curr_ne hd hcurr), update_of_ne (h.curr_ne hd hnext)]
    · simp only [State.setCpu, update_of_ne (fun e => heq e.symm : next ≠ (s.cpu c).curr), update_self]
      exact h.core c
    · have hm : t ∈ (s.cpu c).occupants := by
        rw [hocc]
        rcases mem_pair.mp ht with rfl | rfl <;> simp
      exact ⟨Or.inl hm, h.placed.off c t hm⟩

section Drop

variable {c : κ} {prev : Thread}

omit [DecidableEq κ] in
theorem Inv.switched (h : Inv idle s q r) (hphase : (s.cpu c).phase = .switched prev) :
    prev ∈ (s.cpu c).occupants ∧ (s.cpu c).curr ≠ prev := by
  have hok := h.phase c
  rw [Cpu.Ok, hphase] at hok
  refine ⟨?_, fun e => hok e.symm⟩
  rw [Cpu.occupants, hphase]
  simp

theorem Inv.drop_nowhere (h : Inv idle s q r) (c : κ) :
    Inv idle (s.setCpu c ⟨(s.cpu c).curr, .running⟩) q r := by
  have hcurr := (s.cpu c).curr_mem
  refine h.move ⟨rfl, rfl, rfl, rfl⟩ rfl (fun d _ => rfl) (h.core c) trivial h.run h.reaper
    (fun t ht => ?_) (fun t ht => Or.inl ht) (fun t ht => Or.inl ht) h.placed.apart
  obtain rfl := mem_singleton.mp ht
  exact ⟨Or.inl hcurr, h.placed.off c _ hcurr⟩

theorem Inv.drop_run (h : Inv idle s q r) (hphase : (s.cpu c).phase = .switched prev)
    (hidle : prev ≠ idle c) :
    ∃ hdr link, append s.runQueue s.link prev = some (hdr, link) ∧
      Inv idle ((threadRef { s with runQueue := hdr, link := link } prev).setCpu c
        ⟨(s.cpu c).curr, .running⟩) (q ++ [prev]) r := by
  have hcurr := (s.cpu c).curr_mem
  obtain ⟨hprev, hpc⟩ := h.switched hphase
  obtain ⟨hpq, hpr⟩ := h.placed.off c prev hprev
  obtain ⟨hcq, hcr⟩ := h.placed.off c _ hcurr
  obtain ⟨hdr, link, happ, hrun, hreaper⟩ := h.append_run hpq hpr
  refine ⟨hdr, link, happ, h.move ⟨rfl, rfl, rfl, rfl⟩ rfl (fun d _ => rfl) (h.core c) trivial hrun
    hreaper (fun t ht => ?_) (fun t ht => ?_) (fun t ht => Or.inl ht) fun t ht => ?_⟩
  · obtain rfl := mem_singleton.mp ht
    exact ⟨Or.inl hcurr, by simp [hcq, hpc], hcr⟩
  · rcases mem_append.mp ht with ht | ht
    · exact Or.inl ht
    · exact Or.inr (mem_singleton.mp ht ▸ ⟨hprev, hidle⟩)
  · rcases mem_append.mp ht with ht | ht
    · exact h.placed.apart t ht
    · exact mem_singleton.mp ht ▸ hpr

theorem Inv.drop_reaper (h : Inv idle s q r) (hphase : (s.cpu c).phase = .switched prev)
    (hidle : prev ≠ idle c) :
    ∃ hdr link, append s.threadsQueue s.link prev = some (hdr, link) ∧
      Inv idle ({ s with threadsQueue := hdr, link := link }.setCpu c ⟨(s.cpu c).curr, .running⟩) q
        (r ++ [prev]) := by
  have hcurr := (s.cpu c).curr_mem
  obtain ⟨hprev, hpc⟩ := h.switched hphase
  obtain ⟨hpq, hpr⟩ := h.placed.off c prev hprev
  obtain ⟨hcq, hcr⟩ := h.placed.off c _ hcurr
  obtain ⟨hdr, link, happ, hreaper, hrun⟩ := h.append_reaper hpq hpr
  refine ⟨hdr, link, happ, h.move ⟨rfl, rfl, rfl, rfl⟩ rfl (fun d _ => rfl) (h.core c) trivial hrun
    hreaper (fun t ht => ?_) (fun t ht => Or.inl ht) (fun t ht => ?_) fun t ht hm => ?_⟩
  · obtain rfl := mem_singleton.mp ht
    exact ⟨Or.inl hcurr, hcq, by simp [hcr, hpc]⟩
  · rcases mem_append.mp ht with ht | ht
    · exact Or.inl ht
    · exact Or.inr (mem_singleton.mp ht ▸ ⟨hprev, hidle⟩)
  · rcases mem_append.mp hm with hm | hm
    · exact h.placed.apart t ht hm
    · exact hpq (mem_singleton.mp hm ▸ ht)

theorem Inv.drop (h : Inv idle s q r) (hphase : (s.cpu c).phase = .switched prev) :
    ∃ s', yieldDrop idle s c = some s' ∧ s'.threads = s.threads ∧ s'.status = s.status ∧
      s'.cpu = update s.cpu c ⟨(s.cpu c).curr, .running⟩ ∧
      ((prev ≠ idle c ∧ s.status prev = .ready ∧ Inv idle s' (q ++ [prev]) r ∧
          s'.refCount = update s.refCount prev (s.refCount prev + 1)) ∨
        (prev ≠ idle c ∧ s.status prev = .awaitingCleanup ∧ Inv idle s' q (r ++ [prev]) ∧
          s'.refCount = s.refCount) ∨
        ((prev = idle c ∨ s.status prev = .blocked ∨ s.status prev = .running) ∧ Inv idle s' q r ∧
          s'.refCount = s.refCount)) := by
  have hnone := h.drop_nowhere c
  by_cases hidle : prev = idle c
  · refine ⟨s.setCpu c ⟨(s.cpu c).curr, .running⟩, ?_, rfl, rfl, rfl,
      Or.inr (Or.inr ⟨Or.inl hidle, hnone, rfl⟩)⟩
    simp [yieldDrop, hphase, schedDrop, h.core c, hidle]
  · cases hstatus : s.status prev with
    | awaitingCleanup =>
      obtain ⟨hdr, link, happ, hinv⟩ := h.drop_reaper hphase hidle
      refine ⟨{ s with threadsQueue := hdr, link := link }.setCpu c ⟨(s.cpu c).curr, .running⟩, ?_, rfl,
        rfl, rfl, Or.inr (Or.inl ⟨hidle, rfl, hinv, rfl⟩)⟩
      simp [yieldDrop, hphase, schedDrop, h.core c, hidle, hstatus, reaperEnqueueThread, happ]
    | blocked =>
      refine ⟨s.setCpu c ⟨(s.cpu c).curr, .running⟩, ?_, rfl, rfl, rfl,
        Or.inr (Or.inr ⟨Or.inr (Or.inl rfl), hnone, rfl⟩)⟩
      simp [yieldDrop, hphase, schedDrop, h.core c, hstatus]
    | ready =>
      obtain ⟨hdr, link, happ, hinv⟩ := h.drop_run hphase hidle
      refine ⟨(threadRef { s with runQueue := hdr, link := link } prev).setCpu c
        ⟨(s.cpu c).curr, .running⟩, ?_, rfl, rfl, rfl, Or.inl ⟨hidle, rfl, hinv, rfl⟩⟩
      simp [yieldDrop, hphase, schedDrop, h.core c, hidle, hstatus, Sched.schedEnqueue, happ, threadRef]
    | running =>
      refine ⟨s.setCpu c ⟨(s.cpu c).curr, .running⟩, ?_, rfl, rfl, rfl,
        Or.inr (Or.inr ⟨Or.inr (Or.inr rfl), hnone, rfl⟩)⟩
      simp [yieldDrop, hphase, schedDrop, h.core c, hstatus]

end Drop

end Inv

end LykOS.Sched
