import LykOS.Lib.Lists

/-!
# The scheduler

Threads, the run queue `g_thread_list`, the queue of the reaper and the cores. Both queues go through the
field `list_node_sched` of the threads, and the thread list of a process through `list_node_proc`.

A core that calls `sched_yield` goes through three steps, between which the other cores go on: it takes the
next thread (`schedNext`), it switches to it, and `sched_drop` is then called for the thread that was
switched out, on the stack of the new one. A timer interrupt is a call of `sched_yield` with
`THREAD_STATE_READY`.

A function has no result where it follows a `NULL` pointer or an assertion fails.
-/

namespace LykOS.Sched

open Dlist

/-- The address of a `thread_t`. Its list nodes are fields of it, so that a node stands for its
thread. -/
abbrev Thread := Lists.Node

/-- `thread_status_t`. -/
inductive Status where
  | awaitingCleanup
  | blocked
  | ready
  | running
  deriving DecidableEq, Repr

/-- How far a core is in `sched_yield`. -/
inductive Phase where
  | running
  /-- `sched_next` has returned `next`. -/
  | chosen (status : Status) (next : Thread)
  /-- The core runs on the stack of its new thread, and `prev` is still to be dropped. -/
  | switched (prev : Thread)
  deriving DecidableEq, Repr

/-- The thread register of a core, and its phase. -/
structure Cpu where
  curr : Thread
  phase : Phase
  deriving DecidableEq, Repr

/-- The threads a core has to do with: its current one, one it has taken from the run queue, and one
that it has not dropped yet. -/
def Cpu.occupants (cpu : Cpu) : List Thread :=
  match cpu.phase with
  | .running => [cpu.curr]
  | .chosen _ next => [cpu.curr, next]
  | .switched prev => [cpu.curr, prev]

/-- The threads, with the fields of `thread_t`, the queues, the processes and the cores. -/
structure State (κ π : Type) where
  /-- The threads that have been created, in the order of their creation. -/
  threads : List Thread
  status : Thread → Status
  assignedCore : Thread → Option κ
  refCount : Thread → UInt64
  parentProc : Thread → π
  link : Thread → Link Thread
  linkProc : Thread → Link Thread
  runQueue : Hdr Thread
  threadsQueue : Hdr Thread
  procThreads : π → Hdr Thread
  cpu : κ → Cpu

variable {κ π : Type} [DecidableEq κ] [DecidableEq π]

def threadRef (s : State κ π) (t : Thread) : State κ π :=
  { s with refCount := Function.update s.refCount t (s.refCount t + 1) }

/-- `thread_new`, with the address that `heap_alloc` returns, which is not that of another thread. The
status is that of a zeroed field. -/
def threadNew (s : State κ π) (t : Thread) (parent : π) : Option (State κ π) :=
  if t ∈ s.threads then none
  else do
    let linkProc := Function.update s.linkProc t .init
    let (hdr, linkProc) ← append (s.procThreads parent) linkProc t
    return { s with
      threads := s.threads ++ [t]
      status := Function.update s.status t .awaitingCleanup
      assignedCore := Function.update s.assignedCore t none
      refCount := Function.update s.refCount t 0
      parentProc := Function.update s.parentProc t parent
      link := Function.update s.link t .init
      linkProc := linkProc
      procThreads := Function.update s.procThreads parent hdr }

/-- `sched_next`, on the core `c`. -/
def schedNext (idle : κ ↪ Thread) (s : State κ π) (c : κ) : Option (Thread × State κ π) :=
  match popHead s.runQueue s.link with
  | (some t, hdr, link) => some (t, threadRef { s with runQueue := hdr, link := link } t)
  | (none, _) => (s.assignedCore (s.cpu c).curr).map fun k => (idle k, s)

def schedEnqueue (s : State κ π) (t : Thread) : Option (State κ π) := do
  let (hdr, link) ← append s.runQueue s.link t
  return threadRef { s with runQueue := hdr, link := link } t

def reaperEnqueueThread (s : State κ π) (t : Thread) : Option (State κ π) := do
  let (hdr, link) ← append s.threadsQueue s.link t
  return { s with threadsQueue := hdr, link := link }

/-- `sched_drop`, on the core `c`. The assertion for a running thread is that `true` holds. -/
def schedDrop (idle : κ ↪ Thread) (s : State κ π) (c : κ) (t : Thread) : Option (State κ π) := do
  let k ← s.assignedCore (s.cpu c).curr
  if t = idle k then return s
  else match s.status t with
    | .awaitingCleanup => reaperEnqueueThread s t
    | .blocked => return s
    | .ready => schedEnqueue s t
    | .running => return s

def State.setCpu (s : State κ π) (c : κ) (cpu : Cpu) : State κ π :=
  { s with cpu := Function.update s.cpu c cpu }

/-- `sched_yield` until `sched_next` returns. -/
def yieldTake (idle : κ ↪ Thread) (s : State κ π) (c : κ) (status : Status) :
    Option (State κ π) :=
  match (s.cpu c).phase with
  | .running => do
    let (next, s') ← schedNext idle s c
    return s'.setCpu c ⟨(s.cpu c).curr, .chosen status next⟩
  | _ => none

/-- The rest of `sched_yield`, until `sched_drop` is called on the new stack. -/
def yieldSwitch (s : State κ π) (c : κ) : Option (State κ π) :=
  let curr := (s.cpu c).curr
  match (s.cpu c).phase with
  | .chosen status next =>
    let s := { s with status := Function.update s.status next .running }
    if curr = next then some (s.setCpu c ⟨curr, .running⟩)
    else
      let core := Function.update s.assignedCore next (s.assignedCore curr)
      let s := { s with
        assignedCore := Function.update core curr none
        status := Function.update s.status curr status }
      some (s.setCpu c ⟨next, .switched curr⟩)
  | _ => none

/-- `sched_drop` for the thread that was switched out. -/
def yieldDrop (idle : κ ↪ Thread) (s : State κ π) (c : κ) : Option (State κ π) :=
  match (s.cpu c).phase with
  | .switched prev => do
    let s ← schedDrop idle s c prev
    return s.setCpu c ⟨(s.cpu c).curr, .running⟩
  | _ => none

inductive Op (κ π : Type) where
  | threadNew (t : Thread) (parent : π)
  | schedEnqueue (t : Thread)
  | take (c : κ) (status : Status)
  | switch (c : κ)
  | drop (c : κ)

def step (idle : κ ↪ Thread) (s : State κ π) : Op κ π → Option (State κ π)
  | .threadNew t parent => threadNew s t parent
  | .schedEnqueue t => schedEnqueue s t
  | .take c status => yieldTake idle s c status
  | .switch c => yieldSwitch s c
  | .drop c => yieldDrop idle s c

/-- The state once the cores have been set up: each runs its idle thread, and nothing is queued yet. The
threads that exist are in the lists of their processes. -/
structure Booted (idle : κ ↪ Thread) (s : State κ π) : Prop where
  cpu : ∀ c, s.cpu c = ⟨idle c, .running⟩
  core : ∀ c, s.assignedCore (idle c) = some c
  created : ∀ c, idle c ∈ s.threads
  nodup : s.threads.Nodup
  refCount : ∀ t ∈ s.threads, s.refCount t = 0
  runQueue : s.runQueue = .init
  threadsQueue : s.threadsQueue = .init
  procs : ∀ p, Rep (s.procThreads p) s.linkProc (s.threads.filter (s.parentProc · = p))

/-! ## Two cores -/

def idleOf (c : Bool) : Thread := if c then ⟨0x2000, by decide⟩ else ⟨0x1000, by decide⟩

def twoIdle : Bool ↪ Thread := ⟨idleOf, by decide⟩

def twoCores : State Bool Unit where
  threads := [idleOf false, idleOf true]
  status _ := .awaitingCleanup
  assignedCore t := if t = idleOf false then some false else if t = idleOf true then some true else none
  refCount _ := 0
  parentProc _ := ()
  link _ := .init
  linkProc t :=
    if t = idleOf false then ⟨none, some (idleOf true)⟩
    else if t = idleOf true then ⟨some (idleOf false), none⟩
    else .init
  runQueue := .init
  threadsQueue := .init
  procThreads _ := ⟨2, some (idleOf false), some (idleOf true)⟩
  cpu c := ⟨idleOf c, .running⟩

theorem twoCores_booted : Booted twoIdle twoCores where
  cpu _ := rfl
  core := by decide
  created := by decide
  nodup := by decide
  refCount _ _ := rfl
  runQueue := rfl
  threadsQueue := rfl
  procs _ := ⟨rfl, rfl, rfl, rfl, rfl, trivial⟩

end LykOS.Sched
