import LykOS.Lib.ListMem

/-!
# The reaper

Threads that have exited wait in `threads_queue`, linked through their field `list_node_sched`. A pass of
`reaper_main` walks the queue and computes each thread as the one whose `list_node_proc` the queue node is,
which is an address 16 bytes below the thread. It takes the word `list_node_mutex.prev` for the reference
count and the saved `gs` for the process, and removes the queue node from the thread list of that process.

So a pass does what it is for only when there is nothing to do for it: no queued thread has a count of 0,
and none has a 0 in `list_node_mutex.prev` (`reaper_right_iff`).
-/

namespace LykOS.Reaper

open Dlist ListMem Run LykOS.Lists List

/-! ## Layout of `thread_t` and `proc_t` on x86_64 -/

def offParentProc : UInt64 := 64
def offListNodeSched : UInt64 := 88
def offListNodeProc : UInt64 := 104
def offListNodeMutex : UInt64 := 120
def offRefCount : UInt64 := 136

/-- The words of a `thread_t`. -/
def threadWords : ℕ := 18

/-- The offset of the field `threads` of a `proc_t`. -/
def offThreads : UInt64 := 80

/-- Memory, the threads and processes that exist, and the addresses that were given to `heap_free`. -/
structure World where
  mem : Mem
  threads : List UInt64
  procs : List UInt64
  freed : List UInt64

section

-- the address of `threads_queue`
variable (queue : UInt64)

def reaperEnqueueThread (w : World) (t : UInt64) : Option World :=
  (listAppend w.mem queue (t + offListNodeSched)).map fun mem => { w with mem := mem }

/-- The loop of `reaper_main` from the node `n` on. The count is read twice; in between the lock of the
process is taken, and there must be a process at its address. -/
def reaperLoop : ℕ → World → UInt64 → Option World
  | 0, w, n => if n = 0 then some w else none
  | k + 1, w, n =>
    if n = 0 then some w
    else
      let t := n - offListNodeProc
      if w.mem (t + offRefCount) ≠ 0 then reaperLoop k w (w.mem (n + 8))
      else
        let proc := w.mem (t + offParentProc)
        if proc ∈ w.procs then
          let mem := listRemove w.mem (proc + offThreads) (t + offListNodeProc)
          reaperLoop k { w with mem := mem, freed := w.freed ++ [t] } (mem (n + 8))
        else none

/-- One pass of `reaper_main` over its queue. -/
def reaperPass (w : World) : Option World :=
  reaperLoop (w.mem queue).toNat w (w.mem (queue + 8))

inductive Op where
  | enqueue (t : UInt64)
  | pass

def step (w : World) : Op → Option World
  | .enqueue t => reaperEnqueueThread queue w t
  | .pass => reaperPass queue w

/-! ## What a pass is for -/

def queued (w : World) : List UInt64 :=
  (members (viewHdr w.mem queue) (viewLink w.mem)).map fun n => n.val - offListNodeSched

def procThreads (w : World) (proc : UInt64) : List UInt64 :=
  (members (viewHdr w.mem (proc + offThreads)) (viewLink w.mem)).map fun n => n.val - offListNodeProc

/-- The queued threads that nothing refers to. -/
def dead (w : World) : List UInt64 := (queued queue w).filter fun t => w.mem (t + offRefCount) = 0

/-- A pass frees the dead threads, which leave the queue and the lists of their processes. The other
threads stay in the queue, and no thread changes but for the links of those two lists. -/
structure PassRight (w w' : World) : Prop where
  freed : w'.freed.Perm (w.freed ++ dead queue w)
  left : queued queue w' = (queued queue w).filter fun t => w.mem (t + offRefCount) ≠ 0
  procs : ∀ p ∈ w.procs, procThreads w' p = (procThreads w p).filter fun t => t ∉ dead queue w
  kept : ∀ t ∈ w.threads, t ∉ dead queue w → ∀ i < threadWords, i ∉ [11, 12, 13, 14] →
    w'.mem (t + 8 * UInt64.ofNat i) = w.mem (t + 8 * UInt64.ofNat i)

/-- The step has a result, which is the one it is for. -/
def Right (w : World) : Op → Prop
  | .enqueue t => ∃ w', step queue w (.enqueue t) = some w' ∧ queued queue w' = queued queue w ++ [t] ∧
      w'.freed = w.freed
  | .pass => ∃ w', step queue w .pass = some w' ∧ PassRight queue w w'

/-- A thread is enqueued that is not in the queue yet. -/
def Legal (w : World) : Op → Prop
  | .enqueue t => t ∈ w.threads ∧ t ∉ queued queue w
  | .pass => True

/-- A pass finds no thread with a count of 0, and none with a 0 in `list_node_mutex.prev`. -/
def Held (w : World) : Op → Prop
  | .enqueue _ => True
  | .pass => ∀ t ∈ queued queue w, w.mem (t + offRefCount) ≠ 0 ∧ w.mem (t + offListNodeMutex) ≠ 0

instance (w : World) (o : Op) : Decidable (Legal queue w o) :=
  match o with
  | .enqueue t => inferInstanceAs (Decidable (t ∈ w.threads ∧ t ∉ queued queue w))
  | .pass => isTrue trivial

instance (w : World) (o : Op) : Decidable (Held queue w o) :=
  match o with
  | .enqueue _ => isTrue trivial
  | .pass => List.decidableBAll
    (fun t => w.mem (t + offRefCount) ≠ 0 ∧ w.mem (t + offListNodeMutex) ≠ 0) (queued queue w)

/-- The threads do not overlap each other or the header of the queue, and no list node of theirs is at
the address 0. -/
structure Layout (threads : List UInt64) : Prop where
  apart : ∀ t ∈ threads, ∀ u ∈ threads, ∀ i < threadWords, ∀ j < threadWords,
    t + 8 * UInt64.ofNat i = u + 8 * UInt64.ofNat j → t = u ∧ i = j
  header : ∀ t ∈ threads, ∀ i < threadWords, ∀ k < 3,
    queue + 8 * UInt64.ofNat k ≠ t + 8 * UInt64.ofNat i
  node : ∀ t ∈ threads, t + offListNodeSched ≠ 0

end

/-! ## Walking the queue -/

section Loop

variable {w w' : World} {l : List Node} {prev : Option Node} {k : ℕ}

theorem reaperLoop_freed {n : UInt64} (h : reaperLoop k w n = some w') :
    ∃ rest, w'.freed = w.freed ++ rest := by
  induction k generalizing w n with
  | zero =>
    rw [reaperLoop] at h
    split_ifs at h
    cases h
    exact ⟨[], (List.append_nil _).symm⟩
  | succ k ih =>
    simp only [reaperLoop] at h
    split_ifs at h with hn hrc hproc
    · cases h
      exact ⟨[], (List.append_nil _).symm⟩
    · exact ih h
    · obtain ⟨rest, hrest⟩ := ih h
      exact ⟨_, by rw [hrest, append_assoc]⟩

theorem misread_count (n : UInt64) :
    n - offListNodeProc + offRefCount = n - offListNodeSched + offListNodeMutex := by
  unfold offListNodeProc offRefCount offListNodeSched offListNodeMutex
  grind

theorem reaperLoop_quiet (hl : Linked (viewLink w.mem) prev l)
    (hq : ∀ n ∈ l, w.mem (n.val - offListNodeSched + offListNodeMutex) ≠ 0) (hk : l.length ≤ k) :
    reaperLoop k w (addr l.head?) = some w := by
  induction l generalizing prev k with
  | nil => cases k <;> simp [reaperLoop, addr]
  | cons n l ih =>
    obtain ⟨hn, hl⟩ := hl
    cases k with
    | zero => cases hk
    | succ k =>
      have hnext : w.mem (n.val + 8) = addr l.head? := by
        rw [← addr_ptr (w.mem (n.val + 8))]
        exact congrArg addr (congrArg Link.next hn)
      have hcount := hq n mem_cons_self
      rw [← misread_count] at hcount
      rw [head?_cons, addr_some]
      simp only [reaperLoop, if_neg n.property, if_pos hcount, hnext]
      exact ih hl (fun m hm => hq m (mem_cons_of_mem _ hm)) (Nat.le_of_succ_le_succ hk)

theorem reaperLoop_frees (hl : Linked (viewLink w.mem) prev l)
    (hq : ∃ n ∈ l, w.mem (n.val - offListNodeSched + offListNodeMutex) = 0)
    (h : reaperLoop k w (addr l.head?) = some w') :
    ∃ n ∈ l, ∃ rest, w'.freed = w.freed ++ (n.val - offListNodeProc) :: rest := by
  induction l generalizing prev k with
  | nil =>
    obtain ⟨n, hn, -⟩ := hq
    cases hn
  | cons n l ih =>
    obtain ⟨hn, hl⟩ := hl
    have hnext : w.mem (n.val + 8) = addr l.head? := by
      rw [← addr_ptr (w.mem (n.val + 8))]
      exact congrArg addr (congrArg Link.next hn)
    cases k with
    | zero =>
      rw [head?_cons, addr_some, reaperLoop, if_neg n.property] at h
      cases h
    | succ k =>
      rw [head?_cons, addr_some] at h
      simp only [reaperLoop, if_neg n.property, misread_count] at h
      by_cases hcount : w.mem (n.val - offListNodeSched + offListNodeMutex) = 0
      · rw [if_neg (not_not.mpr hcount), Option.ite_none_right_eq_some] at h
        obtain ⟨rest, hrest⟩ := reaperLoop_freed h.2
        refine ⟨n, mem_cons_self, rest, ?_⟩
        rw [hrest, append_assoc]
        rfl
      · rw [if_pos hcount, hnext] at h
        obtain ⟨m, hm, hzero⟩ := hq
        have hml : m ∈ l := by
          rcases mem_cons.mp hm with rfl | hm
          · exact absurd hzero hcount
          · exact hm
        obtain ⟨m', hm', hrest⟩ := ih hl ⟨m, hml, hzero⟩ h
        exact ⟨m', mem_cons_of_mem _ hm', hrest⟩

end Loop

/-! ## Runs -/

/-- What holds between the steps that are right: the queue is the list of the threads in it. -/
structure Inv (queue : UInt64) (w : World) (l : List Node) : Prop where
  layout : Layout queue w.threads
  rep : Rep (viewHdr w.mem queue) (viewLink w.mem) l
  thread : ∀ n ∈ l, n.val - offListNodeSched ∈ w.threads

section Runs

variable {queue : UInt64} {w : World} {l : List Node}

theorem Inv.queued_eq (h : Inv queue w l) :
    queued queue w = l.map fun n => n.val - offListNodeSched := by
  rw [Reaper.queued, h.rep.members]

theorem Layout.apart_nodes {threads : List UInt64} (h : Layout queue threads) :
    Apart queue fun n => n.val - offListNodeSched ∈ threads := by
  -- the two words of a queue node are the words 11 and 12 of its thread
  have hword : ∀ n : Node, n.val = n.val - offListNodeSched + 8 * UInt64.ofNat 11 ∧
      n.val + 8 = n.val - offListNodeSched + 8 * UInt64.ofNat 12 := fun n => by
    have h1 : (8 : UInt64) * UInt64.ofNat 11 = 88 := rfl
    have h2 : (8 : UInt64) * UInt64.ofNat 12 = 96 := rfl
    rw [h1, h2, offListNodeSched]
    exact ⟨by grind, by grind⟩
  have hhdr : ∀ n : Node, n.val - offListNodeSched ∈ threads → ∀ k < 3,
      queue + 8 * UInt64.ofNat k ≠ n.val ∧ queue + 8 * UInt64.ofNat k ≠ n.val + 8 := by
    intro n hn k hk
    rw [(hword n).2]
    nth_rewrite 1 [(hword n).1]
    exact ⟨h.header _ hn 11 (by decide) k hk, h.header _ hn 12 (by decide) k hk⟩
  refine ⟨fun a b ha hb he => ?_, fun a ha => ?_, fun a ha => hhdr a ha 1 (by decide),
    fun a ha => hhdr a ha 2 (by decide)⟩
  · rw [(hword b).2, (hword a).1] at he
    have hij := (h.apart _ ha _ hb 11 (by decide) 12 (by decide) he).2
    cases hij
  · have h0 := hhdr a ha 0 (by decide)
    rwa [show queue + 8 * UInt64.ofNat 0 = queue from UInt64.add_zero queue] at h0

theorem Layout.below {threads : List UInt64} (h : Layout queue threads) {n : UInt64}
    (hn : n - offListNodeSched ∈ threads) : n - offListNodeProc ∉ threads := by
  intro hm
  have he : n - offListNodeProc + 8 * UInt64.ofNat 2 = n - offListNodeSched + 8 * UInt64.ofNat 0 := by
    have h1 : (8 : UInt64) * UInt64.ofNat 2 = 16 := rfl
    have h2 : (8 : UInt64) * UInt64.ofNat 0 = 0 := rfl
    rw [h1, h2, offListNodeProc, offListNodeSched]
    grind
  have hij := (h.apart _ hm _ hn 2 (by decide) 0 (by decide) he).2
  cases hij

theorem Inv.enqueue (h : Inv queue w l) {t : UInt64} (ht : t ∈ w.threads) (hq : t ∉ queued queue w) :
    ∃ w' x, step queue w (.enqueue t) = some w' ∧ Inv queue w' (l ++ [x]) ∧
      x.val - offListNodeSched = t ∧ w'.freed = w.freed := by
  have hback : t + offListNodeSched - offListNodeSched = t := by
    unfold offListNodeSched
    grind
  have hxl : (⟨t + offListNodeSched, h.layout.node t ht⟩ : Node) ∉ l := fun hm => by
    rw [h.queued_eq] at hq
    exact hq (mem_map.mpr ⟨_, hm, hback⟩)
  have hx : t + offListNodeSched - offListNodeSched ∈ w.threads := by rwa [hback]
  obtain ⟨mem, happ, hrep⟩ := listAppend_rep (x := ⟨t + offListNodeSched, h.layout.node t ht⟩)
    h.rep h.layout.apart_nodes h.thread hx hxl
  refine ⟨{ w with mem := mem }, ⟨t + offListNodeSched, h.layout.node t ht⟩, ?_,
    ⟨h.layout, hrep, fun n hn => ?_⟩, hback, rfl⟩
  · rw [step, reaperEnqueueThread, happ]
    rfl
  · rcases mem_append.mp hn with hn | hn
    · exact h.thread n hn
    · rw [mem_singleton.mp hn]
      exact hx

theorem Inv.pass_eq (h : Inv queue w l) :
    step queue w .pass = reaperLoop l.length w (addr l.head?) := by
  have hlen : (w.mem queue).toNat = l.length := h.rep.length
  have hhead : w.mem (queue + 8) = addr l.head? := by
    rw [← h.rep.head]
    exact (addr_ptr _).symm
  rw [step, reaperPass, hlen, hhead]

theorem Inv.right_iff (h : Inv queue w l) :
    Right queue w .pass ↔ Held queue w .pass := by
  rw [Right, Held, h.pass_eq, h.queued_eq]
  constructor
  · rintro ⟨w', hw', hright⟩
    by_cases hquiet : ∀ n ∈ l, w.mem (n.val - offListNodeSched + offListNodeMutex) ≠ 0
    · -- nothing was freed, so no thread was dead
      rw [reaperLoop_quiet h.rep.linked hquiet le_rfl] at hw'
      cases hw'
      have hlen := hright.freed.length_eq
      have hdead : dead queue w = [] := by
        rw [length_append] at hlen
        exact length_eq_zero_iff.mp (by omega)
      intro t ht
      obtain ⟨n, hn, rfl⟩ := mem_map.mp ht
      refine ⟨fun hzero => ?_, hquiet n hn⟩
      have hmem : n.val - offListNodeSched ∈ dead queue w := by
        rw [dead, h.queued_eq]
        exact mem_filter.mpr ⟨ht, decide_eq_true hzero⟩
      rw [hdead] at hmem
      cases hmem
    · -- the address below a thread was freed, which is no thread
      push Not at hquiet
      obtain ⟨n, hn, rest, hfreed⟩ := reaperLoop_frees h.rep.linked hquiet hw'
      have hperm := hright.freed
      rw [hfreed, perm_append_left_iff] at hperm
      have hmem : n.val - offListNodeProc ∈ dead queue w := hperm.subset mem_cons_self
      rw [dead, h.queued_eq] at hmem
      obtain ⟨m, hm, heq⟩ := mem_map.mp (mem_of_mem_filter hmem)
      exact absurd (heq ▸ h.thread m hm) (h.layout.below (h.thread n hn))
  · intro hheld
    have hquiet : ∀ n ∈ l, w.mem (n.val - offListNodeSched + offListNodeMutex) ≠ 0 :=
      fun n hn => (hheld _ (mem_map_of_mem hn)).2
    have hdead : dead queue w = [] := by
      rw [dead, h.queued_eq]
      exact filter_eq_nil_iff.mpr fun t ht hz => (hheld t ht).1 (of_decide_eq_true hz)
    refine ⟨w, reaperLoop_quiet h.rep.linked hquiet le_rfl, ⟨?_, ?_, fun p _ => ?_, fun _ _ _ _ _ _ => rfl⟩⟩
    · rw [hdead, List.append_nil]
    · rw [h.queued_eq]
      exact (filter_eq_self.mpr fun t ht => decide_eq_true (hheld t ht).1).symm
    · rw [hdead]
      exact (filter_eq_self.mpr fun t _ => by simp).symm

end Runs

/-- In runs that enqueue threads not yet in the queue, all steps are right exactly if each pass finds only
threads with a count other than 0 and with something other than 0 in `list_node_mutex.prev`. -/
theorem reaper_right_iff (queue : UInt64) (w : World) (hlayout : Layout queue w.threads)
    (hempty : viewHdr w.mem queue = .init) (ops : List Op) :
    Meets (step queue) (fun w o => Legal queue w o ∧ Right queue w o) w ops ↔
      Meets (step queue) (fun w o => Legal queue w o ∧ Held queue w o) w ops := by
  have hinit : Inv queue w [] := by
    refine ⟨hlayout, ?_, fun n hn => (nomatch hn)⟩
    rw [hempty]
    exact Rep.init _
  refine meets_iff_of_step (I := fun w => ∃ l, Inv queue w l) (fun w o hI => ?_)
    (fun w o w' hI hD hw' => ?_) ⟨[], hinit⟩
  · obtain ⟨l, h⟩ := hI
    refine and_congr_right fun hlegal => ?_
    cases o with
    | enqueue t =>
      refine iff_of_true ?_ trivial
      obtain ⟨w', x, hw', hinv, hx, hfreed⟩ := h.enqueue hlegal.1 hlegal.2
      refine ⟨w', hw', ?_, hfreed⟩
      rw [hinv.queued_eq, h.queued_eq, map_append, map_singleton, hx]
    | pass => exact h.right_iff
  · obtain ⟨l, h⟩ := hI
    cases o with
    | enqueue t =>
      obtain ⟨w₁, x, hw₁, hinv, -⟩ := h.enqueue hD.1.1 hD.1.2
      cases hw₁.symm.trans hw'
      exact ⟨_, hinv⟩
    | pass =>
      have hheld : ∀ t ∈ queued queue w, _ := hD.2
      rw [h.queued_eq] at hheld
      rw [h.pass_eq, reaperLoop_quiet h.rep.linked (fun n hn => (hheld _ (mem_map_of_mem hn)).2)
        le_rfl] at hw'
      cases hw'
      exact ⟨l, h⟩

/-- One thread, of one process, with its reference count and the word `list_node_mutex.prev`. The saved
`gs` of a new thread is 0. -/
def oneThread (refCount mutexPrev : UInt64) : World where
  mem a :=
    if a = 0x1000 + offRefCount then refCount
    else if a = 0x1000 + offListNodeMutex then mutexPrev
    else if a = 0x1000 + offParentProc then 0x8000
    else 0
  threads := [0x1000]
  procs := [0x8000]
  freed := []

theorem oneThread_layout (refCount mutexPrev : UInt64) :
    Layout 0x100 (oneThread refCount mutexPrev).threads where
  apart t ht u hu := by
    rw [mem_singleton.mp ht, mem_singleton.mp hu]
    decide +kernel
  header t ht := by
    rw [mem_singleton.mp ht]
    decide +kernel
  node t ht := by
    rw [mem_singleton.mp ht]
    decide

theorem reaper_right_sample :
    Meets (step 0x100) (fun w o => Legal 0x100 w o ∧ Right 0x100 w o) (oneThread 1 0x2078)
      [.pass, .enqueue 0x1000, .pass] := by
  refine (reaper_right_iff 0x100 (oneThread 1 0x2078) (oneThread_layout 1 0x2078) rfl _).mpr ?_
  decide +kernel

/-- The reaper does not free a dead thread: it takes the saved `gs` of the thread for its process, which
is `NULL`. -/
theorem dead_thread_not_reaped :
    (step 0x100 (oneThread 0 0) (.enqueue 0x1000)).map (fun w => (dead 0x100 w, (step 0x100 w .pass).isSome)) =
      some ([0x1000], false) := by
  decide +kernel

end LykOS.Reaper
