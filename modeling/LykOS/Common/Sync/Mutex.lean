import LykOS.Sys.Reaper

/-!
# Mutexes

`common/sync/mutex.c` on memory words. A thread that cannot lock a mutex appends its `list_node_mutex` to
`wait_queue` and marks the mutex as contested (`waiters_queued`). `mutex_release` of a contested mutex
should take the first node from the queue and give the mutex to its thread. It computes the thread from
`&mutex->wait_queue.head`, the address of the field and not the node in it. So the thread that
it removes and enqueues is a place 112 bytes below the queue, whatever the queue holds
(`mutex_release_never_hands_off`).
-/

namespace LykOS.Mutex

open Dlist ListMem Run List
open LykOS.Lists (Node)
open Reaper (offListNodeSched offListNodeMutex offRefCount)

/-- `mutex_state_t`. -/
inductive MutexState
  | unlocked
  | locked
  | contested
  deriving DecidableEq, Repr

/-- Memory, the state of the mutex, the states that were stored, and the threads given to `sched_enqueue`.
-/
structure World where
  mem : Mem
  state : MutexState
  stored : List MutexState
  enqueued : List UInt64

def World.set (w : World) (s : MutexState) : World := { w with state := s, stored := w.stored ++ [s] }

section

-- the addresses of `mutex->wait_queue` and of `g_thread_list`
variable (queue sched : UInt64)

/-- `sched_enqueue(thread)`. -/
def schedEnqueue (w : World) (thread : UInt64) : Option World := do
  let mem ← listAppend w.mem sched (thread + offListNodeSched)
  let mem := store mem (thread + offRefCount) (mem (thread + offRefCount) + 1)
  return { w with mem, enqueued := w.enqueued ++ [thread] }

/-- `try_lock(mutex, weak)`, if it does not fail spuriously. -/
def tryLock (w : World) : Bool × World :=
  if w.state = .unlocked then (true, w.set .locked) else (false, w)

/-- What `mutex_acquire` does under the lock of the mutex, after its tries have failed: the calling
thread is put into the queue, or gets the mutex. -/
def mutexAcquireSlow (w : World) (thread : UInt64) : Option World :=
  let old := w.state
  let w := w.set .contested
  if old ≠ .unlocked then
    (listAppend w.mem queue (thread + offListNodeMutex)).map fun mem => { w with mem }
  else some (w.set .locked)

/-- `SPIN_COUNT`. -/
def spinCount : ℕ := 10

/-- The tries of `mutex_acquire`, of which some fail spuriously. After a try that failed other threads run. -/
def tries (spurious : ℕ → Bool) (others : ℕ → World → Option World) :
    ℕ → ℕ → World → Option (Bool × World)
  | 0, _, w => some (false, w)
  | n + 1, i, w =>
    let (locked, w) := if spurious i then (false, w) else tryLock w
    if locked then some (true, w) else (others i w).bind (tries spurious others n (i + 1))

/-- `mutex_acquire(mutex)`, up to the point where the thread has the mutex or is to block. -/
def mutexAcquire (spurious : ℕ → Bool) (others : ℕ → World → Option World) (w : World) (thread : UInt64) :
    Option World := do
  let (locked, w) ← tries spurious others (1 + spinCount) 0 w
  if locked then return w else mutexAcquireSlow queue w thread

/-- `mutex_release(mutex)`. -/
def mutexRelease (w : World) : Option World :=
  if w.state = .locked then some (w.set .unlocked)
  else do
    guard (w.state = .contested)
    guard (listIsEmpty w.mem queue = some false)
    -- `LIST_GET_CONTAINER(&mutex->wait_queue.head, thread_t, list_node_mutex)`
    let thread := queue + 8 - offListNodeMutex
    let mem := listRemove w.mem queue (thread + offListNodeMutex)
    let w ← schedEnqueue sched { w with mem } thread
    let empty ← listIsEmpty w.mem queue
    return if empty then w.set .locked else w

inductive Op
  | tryLock
  | wait (thread : UInt64)
  | release

def step (w : World) : Op → Option World
  | .tryLock => some (tryLock w).2
  | .wait thread => mutexAcquireSlow queue w thread
  | .release => mutexRelease queue sched w

/-- What the other threads do is a run of the steps. -/
def AreSteps (others : ℕ → World → Option World) : Prop :=
  ∀ i w w', others i w = some w' → ∃ ops, run (step queue sched) w ops = some w'

/-- The thread that waits with a node. -/
def threadOf (x : Node) : UInt64 := x.val - offListNodeMutex

/-- The release of a contested mutex with the waiters `l` gives it to the first one: that one is
enqueued, the others stay in the queue in their order, and the mutex is locked, or contested if there are
others. It is not stored as unlocked in between. -/
def HandsOff (w : World) (l : List Node) : Prop :=
  ∃ w', mutexRelease queue sched w = some w' ∧
    (∃ x ∈ l.head?, w'.enqueued = w.enqueued ++ [threadOf x]) ∧
    Rep (viewHdr w'.mem queue) (viewLink w'.mem) l.tail ∧
    w'.state = (if l.length = 1 then .locked else .contested) ∧
    ∃ s, w'.stored = w.stored ++ s ∧ .unlocked ∉ s

/-- A mutex that was initialized with `MUTEX_INIT`. -/
def start (mem : Mem) : World := ⟨mem, .unlocked, [], []⟩

end

/-! ## The queue -/

section

variable {queue sched : UInt64} {w w' : World} {l : List Node}

theorem threadOf_node (x : Node) : threadOf x + offListNodeMutex = x.val := by
  unfold threadOf
  grind

theorem tries_run {spurious : ℕ → Bool} {others : ℕ → World → Option World} (ho : AreSteps queue sched others)
    {n i : ℕ} {locked : Bool} (h : tries spurious others n i w = some (locked, w')) :
    ∃ ops, run (step queue sched) w ops = some w' ∧
      (locked = true → ∃ front, ops = front ++ [.tryLock]) := by
  induction n generalizing i w with
  | zero =>
    cases h
    exact ⟨[], rfl, fun hl => absurd hl Bool.false_ne_true⟩
  | succ n ih =>
    rw [tries] at h
    by_cases hlock : spurious i = false ∧ w.state = .unlocked
    · rw [tryLock, hlock.1, if_neg Bool.false_ne_true, if_pos hlock.2] at h
      cases h
      have hstep : step queue sched w .tryLock = some (w.set .locked) :=
        congrArg (fun r : Bool × World => some r.2) (if_pos hlock.2)
      exact ⟨[.tryLock], run_cons_eq_some.mpr ⟨_, hstep, rfl⟩, fun _ => ⟨[], rfl⟩⟩
    · -- the try leaves the mutex as it is
      have hfail : (if spurious i = true then (false, w) else tryLock w) = (false, w) := by
        split_ifs with hs
        · rfl
        · exact if_neg fun hw => hlock ⟨Bool.not_eq_true _ ▸ hs, hw⟩
      rw [hfail] at h
      obtain ⟨w₁, hw₁, h⟩ := Option.bind_eq_some_iff.mp h
      obtain ⟨ops, hops⟩ := ho i w w₁ hw₁
      obtain ⟨ops', hops', hlast⟩ := ih h
      refine ⟨ops ++ ops', by rw [run_append, hops]; exact hops', fun hl => ?_⟩
      obtain ⟨front, rfl⟩ := hlast hl
      exact ⟨ops ++ front, (append_assoc _ _ _).symm⟩

/-- Of `mutex_acquire`, the others see one step: it locks the mutex, or puts the thread into the queue. -/
theorem mutexAcquire_run {spurious : ℕ → Bool} {others : ℕ → World → Option World}
    (ho : AreSteps queue sched others) {thread : UInt64}
    (h : mutexAcquire queue spurious others w thread = some w') :
    ∃ front last, run (step queue sched) w (front ++ [last]) = some w' ∧
      (last = .tryLock ∨ last = .wait thread) := by
  obtain ⟨⟨locked, w₁⟩, htries, h⟩ := Option.bind_eq_some_iff.mp h
  obtain ⟨ops, hrun, hlast⟩ := tries_run ho htries
  cases locked with
  | true =>
    cases h
    obtain ⟨front, rfl⟩ := hlast rfl
    exact ⟨front, _, hrun, Or.inl rfl⟩
  | false =>
    refine ⟨ops, .wait thread, ?_, Or.inr rfl⟩
    rw [run_append, hrun]
    exact run_cons_eq_some.mpr ⟨w', h, rfl⟩

theorem wait_rep (sched : UInt64) {S : Node → Prop} {x : Node} (hstate : w.state ≠ .unlocked)
    (hr : Rep (viewHdr w.mem queue) (viewLink w.mem) l) (hapart : Apart queue S) (hl : ∀ n ∈ l, S n)
    (hx : S x) (hxl : x ∉ l) :
    ∃ w', step queue sched w (.wait (threadOf x)) = some w' ∧ w'.state = .contested ∧
      Rep (viewHdr w'.mem queue) (viewLink w'.mem) (l ++ [x]) := by
  obtain ⟨mem, happ, hrep⟩ := listAppend_rep hr hapart hl hx hxl
  refine ⟨{ w.set .contested with mem }, ?_, rfl, hrep⟩
  show mutexAcquireSlow queue w (threadOf x) = _
  have hmem : (w.set .contested).mem = w.mem := rfl
  rw [mutexAcquireSlow, if_pos hstate, threadOf_node, hmem, happ]
  rfl

theorem waits_rep (sched : UInt64) {S : Node → Prop} {xs : List Node} (hstate : w.state ≠ .unlocked)
    (hr : Rep (viewHdr w.mem queue) (viewLink w.mem) l) (hapart : Apart queue S)
    (hS : ∀ n ∈ l ++ xs, S n) (hnodup : (l ++ xs).Nodup) :
    ∃ w', run (step queue sched) w (xs.map fun x => .wait (threadOf x)) = some w' ∧
      w'.state = (if xs = [] then w.state else .contested) ∧
      Rep (viewHdr w'.mem queue) (viewLink w'.mem) (l ++ xs) := by
  induction xs generalizing w l with
  | nil => exact ⟨w, rfl, rfl, by rwa [List.append_nil]⟩
  | cons x xs ih =>
    have hx : x ∉ l := fun hmem =>
      (nodup_append.mp hnodup).2.2 x hmem x mem_cons_self rfl
    obtain ⟨w₁, hw₁, hstate₁, hr₁⟩ := wait_rep sched hstate hr hapart
      (fun n hn => hS n (mem_append_left _ hn)) (hS x (by simp)) hx
    rw [← singleton_append, ← append_assoc] at hS hnodup
    obtain ⟨w₂, hrun, hstate₂, hr₂⟩ := ih (w := w₁) (by rw [hstate₁]; decide) hr₁ hS hnodup
    refine ⟨w₂, ?_, ?_, ?_⟩
    · rw [map_cons, run_cons, hw₁]
      exact hrun
    · rw [hstate₂, hstate₁, ite_self, if_neg (cons_ne_nil _ _)]
    · rwa [append_assoc] at hr₂

/-- A mutex comes to be contested with any queue: one thread locks it, and the others wait for it. -/
theorem waiters_queued (sched : UInt64) {S : Node → Prop} {mem : Mem} {xs : List Node}
    (hr : Rep (viewHdr mem queue) (viewLink mem) []) (hapart : Apart queue S) (hS : ∀ n ∈ xs, S n)
    (hnodup : xs.Nodup) (hne : xs ≠ []) :
    ∃ w, run (step queue sched) (start mem) (.tryLock :: xs.map fun x => .wait (threadOf x)) = some w ∧
      w.state = .contested ∧ Rep (viewHdr w.mem queue) (viewLink w.mem) xs := by
  obtain ⟨w, hrun, hstate, hrep⟩ := waits_rep sched (w := (start mem).set .locked)
    (show MutexState.locked ≠ .unlocked by decide) hr hapart hS hnodup
  exact ⟨w, hrun, by rw [hstate, if_neg hne], hrep⟩

def waiter : Node := ⟨0x4078, by decide⟩

def nextWaiter : Node := ⟨0x3078, by decide⟩

/-- The threads are in the queue in the order in which they came, not in that of their addresses. -/
theorem waiters_queued_sample :
    ∃ w, run (step 0x1008 0x2000) (start fun _ => 0)
        [.tryLock, .wait (threadOf waiter), .wait (threadOf nextWaiter)] = some w ∧
      w.state = .contested ∧ Rep (viewHdr w.mem 0x1008) (viewLink w.mem) [waiter, nextWaiter] := by
  have hS : ∀ n ∈ [waiter, nextWaiter], n = waiter ∨ n = nextWaiter := by simp
  refine waiters_queued 0x2000 ⟨rfl, rfl, rfl, trivial⟩ ⟨?_, ?_, ?_, ?_⟩ hS (by decide) (cons_ne_nil _ _)
  · rintro a b (rfl | rfl) (rfl | rfl) <;> decide
  all_goals
    rintro a (rfl | rfl) <;> decide

/-! ## The release -/

theorem head_ne_field {x : Node} (hr : Rep (viewHdr w.mem queue) (viewLink w.mem) (x :: l)) :
    x.val ≠ queue + 8 := by
  intro hx
  have hhead : ptr (w.mem (queue + 8)) = some x := hr.head
  have hprev : ptr (w.mem x.val) = none := congrArg Link.prev hr.linked.1
  rw [hx, hhead] at hprev
  cases hprev

theorem schedEnqueue_some {thread : UInt64} (h : schedEnqueue sched w thread = some w') :
    w'.enqueued = w.enqueued ++ [thread] ∧ w'.stored = w.stored ∧ w'.state = w.state := by
  obtain ⟨mem, -, hw'⟩ := Option.bind_eq_some_iff.mp h
  cases hw'
  exact ⟨rfl, rfl, rfl⟩

theorem mutexRelease_some (hstate : w.state = .contested) (h : mutexRelease queue sched w = some w') :
    w'.enqueued = w.enqueued ++ [queue + 8 - offListNodeMutex] ∧
      ∃ s, w'.stored = w.stored ++ s ∧ .unlocked ∉ s := by
  rw [mutexRelease, if_neg (by rw [hstate]; decide)] at h
  obtain ⟨_, -, h⟩ := Option.bind_eq_some_iff.mp h
  obtain ⟨_, -, h⟩ := Option.bind_eq_some_iff.mp h
  obtain ⟨w₁, hw₁, h⟩ := Option.bind_eq_some_iff.mp h
  obtain ⟨empty, -, h⟩ := Option.bind_eq_some_iff.mp h
  obtain ⟨henq, hstored, -⟩ := schedEnqueue_some hw₁
  have hw' : (if empty = true then w₁.set .locked else w₁) = w' := Option.some.inj h
  subst hw'
  split_ifs
  · exact ⟨henq, [.locked], congrArg (fun s => s ++ [MutexState.locked]) hstored, by decide⟩
  · exact ⟨henq, [], hstored.trans (List.append_nil _).symm, not_mem_nil⟩

end

/-- Whatever a contested mutex has in its queue, its release does not hand it to the first waiter. Where it
has a result, it gives the scheduler a place below the queue; it does not store `UNLOCKED`. -/
theorem mutex_release_never_hands_off {queue sched : UInt64} {w : World} {l : List Node}
    (hstate : w.state = .contested) (hr : Rep (viewHdr w.mem queue) (viewLink w.mem) l) (hne : l ≠ []) :
    ¬ HandsOff queue sched w l ∧
      ∀ w', mutexRelease queue sched w = some w' →
        w'.enqueued = w.enqueued ++ [queue + 8 - offListNodeMutex] ∧
          ∃ s, w'.stored = w.stored ++ s ∧ .unlocked ∉ s := by
  refine ⟨?_, fun w' h => mutexRelease_some hstate h⟩
  rintro ⟨w', hrel, ⟨x, hx, henq⟩, -⟩
  obtain ⟨y, l, rfl⟩ := exists_cons_of_ne_nil hne
  obtain rfl : y = x := Option.some.inj hx
  obtain ⟨henq', -⟩ := mutexRelease_some hstate hrel
  rw [henq, append_cancel_left_eq] at henq'
  have hthread : threadOf y = queue + 8 - offListNodeMutex := head_eq_of_cons_eq henq'
  refine head_ne_field hr ?_
  rw [← threadOf_node y, hthread]
  grind

/-- A mutex with its queue at `0x1008`, and the thread list at `0x2000`. The thread at `0x3000` waits. -/
def sampleWorld : Option World :=
  run (step 0x1008 0x2000) (start fun _ => 0) [.tryLock, .wait 0x3000]

theorem mutex_release_never_hands_off_sample :
    ∃ w, sampleWorld = some w ∧ w.state = .contested ∧
      Rep (viewHdr w.mem 0x1008) (viewLink w.mem) [⟨0x3078, by decide⟩] ∧
      ¬ HandsOff 0x1008 0x2000 w [⟨0x3078, by decide⟩] := by
  have hrep : Rep (viewHdr ((sampleWorld.get rfl).mem) 0x1008) (viewLink (sampleWorld.get rfl).mem)
      [⟨0x3078, by decide⟩] := ⟨by decide, by decide, by decide, by decide, trivial⟩
  exact ⟨_, rfl, rfl, hrep, (mutex_release_never_hands_off rfl hrep (cons_ne_nil _ _)).1⟩

/-- With one waiter the release fails its assertion: the length is 0, and the head is still there. -/
theorem mutex_release_of_one_fails :
    (sampleWorld.bind fun w => mutexRelease 0x1008 0x2000 w).isNone := by
  decide

end LykOS.Mutex
