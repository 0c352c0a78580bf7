import LykOS.Lib.Run

/-!
# Spinlocks and interrupts

`spinlock_acquire` first sets the lock, then stores the interrupt flag in it and masks; `spinlock_release`
reads the stored flag, clears the lock and unmasks if the flag was set. Between any two of these steps an
interrupt can arrive on a core whose flag is enabled; its handler may take locks, and may yield the core to
another thread.

The flag stored in a lock is the one from before the outermost acquire if the lock is the outermost one, and
`false` otherwise, so the flag is restored in every run (`flag_restored`). But a lock taken with interrupts
enabled is held with interrupts enabled until the mask, and a run is free of that exactly if every
test-and-set that succeeds finds them masked (`no_preemption_iff`).
-/

namespace LykOS.Spinlock

open Run Function List

/-- `spinlock_t`. -/
structure Lock where
  lock : Bool
  prevIntState : Bool
  deriving DecidableEq

/-- Where a call of `spinlock_acquire` or `spinlock_release` is: at the test-and-set, or in the inner
loop, with `deadlock_cnt`; at the read of the flag; at the mask; at the read of `prev_int_state`; at the
clear, and at the unmask, with the value read. -/
inductive Pc (ℓ : Type) where
  | idle
  | test (l : ℓ) (deadlockCnt : ℕ)
  | spin (l : ℓ) (deadlockCnt : ℕ)
  | readFlag (l : ℓ)
  | mask (l : ℓ)
  | release (l : ℓ)
  | clear (l : ℓ) (prevIntState : Bool)
  | unmask (prevIntState : Bool)
  deriving DecidableEq

def Pc.tested {ℓ : Type} : Pc ℓ → Option ℓ
  | .test l _ => some l
  | _ => none

/-- A piece of code that runs until the core is given back: the code of a thread, or an interrupt handler.
`held` are the locks it has taken, the last one first, and `base` is the interrupt flag it had when it
called for the first of them. -/
structure Frame (ℓ : Type) where
  pc : Pc ℓ
  held : List ℓ
  base : Bool
  deriving DecidableEq

def Frame.start {ℓ : Type} : Frame ℓ := ⟨.idle, [], false⟩

/-- Cores `κ`, threads `τ` and locks `ℓ`. A thread runs `frame` on top of the interrupted code `under`.
`owner` is the thread and the depth in it of the code that took a lock last; no step reads it. -/
structure State (κ τ ℓ : Type) where
  locks : ℓ → Lock
  owner : ℓ → Option (τ × ℕ)
  int : κ → Bool
  core : τ → Option κ
  frame : τ → Frame ℓ
  under : τ → List (Frame ℓ)

variable {κ τ ℓ : Type}

section

variable [DecidableEq κ] [DecidableEq τ] [DecidableEq ℓ]

/-- The code that thread `t` runs on core `c`, and the flag there, after a step of it. -/
def State.put (s : State κ τ ℓ) (t : τ) (c : κ) (f : Frame ℓ) (b : Bool) : State κ τ ℓ :=
  { s with frame := update s.frame t f, int := update s.int c b }

def State.setLock (s : State κ τ ℓ) (l : ℓ) (v : Lock) (o : Option (τ × ℕ)) : State κ τ ℓ :=
  { s with locks := update s.locks l v, owner := update s.owner l o }

/-- The thread and the depth in it of the code it runs. -/
def State.me (s : State κ τ ℓ) (t : τ) : τ × ℕ := (t, (s.under t).length)

/-- One elementary step of the call that thread `t` is in; waiting too long for a lock is a panic. -/
def advance (s : State κ τ ℓ) (t : τ) (c : κ) : Option (State κ τ ℓ) :=
  let f := s.frame t
  match f.pc with
  | .idle => none
  | .test l n =>
    if (s.locks l).lock then some (s.put t c { f with pc := .spin l n } (s.int c))
    else
      some ((s.setLock l { s.locks l with lock := true } (some (s.me t))).put t c
        { f with pc := .readFlag l, held := l :: f.held } (s.int c))
  | .spin l n =>
    if (s.locks l).lock then
      if 3000000 ≤ n then none else some (s.put t c { f with pc := .spin l (n + 1) } (s.int c))
    else some (s.put t c { f with pc := .test l n } (s.int c))
  | .readFlag l =>
    some ((s.setLock l { s.locks l with prevIntState := s.int c } (s.owner l)).put t c
      { f with pc := .mask l } (s.int c))
  | .mask _ => some (s.put t c { f with pc := .idle } false)
  | .release l => some (s.put t c { f with pc := .clear l (s.locks l).prevIntState } (s.int c))
  | .clear l b =>
    some ((s.setLock l { s.locks l with lock := false } (s.owner l)).put t c
      { f with pc := .unmask b, held := f.held.tail } (s.int c))
  | .unmask b => some (s.put t c { f with pc := .idle } (if b then true else s.int c))

/-- What a thread does next on its core. Calls are nested: a lock is acquired that the code does not hold
yet, and the last one acquired is released. Code that holds no lock may also set the interrupt flag, and
may call `sched_yield`, which masks, and unmasks in the thread that it switches to. -/
inductive Act (τ ℓ : Type) where
  | acquire (l : ℓ)
  | release
  | advance
  | interrupt
  | iret
  | setInt (b : Bool)
  | yield (next : τ)
  deriving DecidableEq

def act (s : State κ τ ℓ) (t : τ) (c : κ) : Act τ ℓ → Option (State κ τ ℓ)
  | .acquire l =>
    let f := s.frame t
    if f.pc = .idle ∧ l ∉ f.held then
      some (s.put t c { f with pc := .test l 0, base := if f.held = [] then s.int c else f.base }
        (s.int c))
    else none
  | .release =>
    match (s.frame t).pc, (s.frame t).held with
    | .idle, l :: _ => some (s.put t c { s.frame t with pc := .release l } (s.int c))
    | _, _ => none
  | .advance => advance s t c
  | .interrupt =>
    if s.int c then
      some { s.put t c .start false with under := update s.under t (s.frame t :: s.under t) }
    else none
  | .iret =>
    match s.under t with
    | [] => none
    | f :: fs =>
      if (s.frame t).pc = .idle ∧ (s.frame t).held = [] then
        some { s.put t c f true with under := update s.under t fs }
      else none
  | .setInt b =>
    if (s.frame t).pc = .idle ∧ (s.frame t).held = [] then some (s.put t c (s.frame t) b) else none
  | .yield next =>
    if (s.frame t).pc = .idle ∧ (s.frame t).held = [] then
      if next = t then some (s.put t c (s.frame t) false)
      else if s.core next = none then
        some { s with core := update (update s.core t none) next (some c), int := update s.int c true }
      else none
    else none

/-- A step of one thread, on the core it runs on. -/
def step (s : State κ τ ℓ) (o : τ × Act τ ℓ) : Option (State κ τ ℓ) :=
  (s.core o.1).bind fun c => act s o.1 c o.2

end

/-- A core runs one thread, and no code is in a call or holds a lock. -/
structure Quiet (s : State κ τ ℓ) : Prop where
  alone : ∀ t t' c, s.core t = some c → s.core t' = some c → t = t'
  idle : ∀ t, (s.frame t).pc = .idle
  held : ∀ t, (s.frame t).held = []
  under : ∀ t, s.under t = []

/-- No code on a core, interrupted or not, holds a lock while interrupts are enabled there. -/
def Safe (s : State κ τ ℓ) : Prop :=
  ∀ t c, s.core t = some c → s.int c = true → ∀ f ∈ s.frame t :: s.under t, f.held = []

/-- The step that ends the release of the last lock leaves the flag as it was before the first acquire. -/
def Restored (s : State κ τ ℓ) (o : τ × Act τ ℓ) (s' : State κ τ ℓ) : Prop :=
  ∀ c b, s.core o.1 = some c → o.2 = .advance → (s.frame o.1).pc = .unmask b →
    (s.frame o.1).held = [] → s'.int c = (s.frame o.1).base

/-- A test-and-set that takes the lock is made with interrupts masked. -/
def Masked (s : State κ τ ℓ) (o : τ × Act τ ℓ) : Prop :=
  o.2 = .advance → ∀ c ∈ s.core o.1, ∀ l ∈ (s.frame o.1).pc.tested,
    (s.locks l).lock = false → s.int c = false

instance [DecidableEq τ] [DecidableEq ℓ] (s : State κ τ ℓ) (o : τ × Act τ ℓ) : Decidable (Masked s o) :=
  inferInstanceAs (Decidable (_ → _))

/-! ## What the stored flags are -/

/-- The flag at the acquire of a lock, when the locks `ls` are held already. -/
def expected (base : Bool) : List ℓ → Bool
  | [] => base
  | _ :: _ => false

/-- Each lock of the list stores the flag from its acquire. -/
def Saved (locks : ℓ → Lock) (base : Bool) : List ℓ → Prop
  | [] => True
  | l :: ls => (locks l).prevIntState = expected base ls ∧ Saved locks base ls

/-- The flag where the call is, and the lock that it is about. -/
def PcOk (int : Bool) (f : Frame ℓ) : Prop :=
  match f.pc with
  | .idle => f.held ≠ [] → int = false
  | .test l _ => l ∉ f.held ∧ int = expected f.base f.held
  | .spin l _ => l ∉ f.held ∧ int = expected f.base f.held
  | .readFlag l => ∃ ls, f.held = l :: ls ∧ int = expected f.base ls
  | .mask l => ∃ ls, f.held = l :: ls ∧ int = expected f.base ls
  | .release l => ∃ ls, f.held = l :: ls ∧ int = false
  | .clear l b => ∃ ls, f.held = l :: ls ∧ int = false ∧ b = expected f.base ls
  | .unmask b => int = false ∧ b = expected f.base f.held

/-- The locks of the code that the flag has been stored in. -/
def Frame.stored (f : Frame ℓ) : List ℓ :=
  match f.pc with
  | .readFlag _ => f.held.tail
  | _ => f.held

/-- The code `id` that runs with the flag `int`: its locks are set and its own. -/
structure FrameOk (locks : ℓ → Lock) (owner : ℓ → Option (τ × ℕ)) (id : τ × ℕ) (int : Bool)
    (f : Frame ℓ) : Prop where
  mine : ∀ l ∈ f.held, (locks l).lock = true ∧ owner l = some id
  nodup : f.held.Nodup
  saved : Saved locks f.base f.stored
  pc : PcOk int f

/-- Interrupted code was interrupted with the flag enabled. -/
def StackOk (locks : ℓ → Lock) (owner : ℓ → Option (τ × ℕ)) (t : τ) : List (Frame ℓ) → Prop
  | [] => True
  | f :: fs => FrameOk locks owner (t, fs.length) true f ∧ StackOk locks owner t fs

structure Inv (s : State κ τ ℓ) : Prop where
  alone : ∀ t t' c, s.core t = some c → s.core t' = some c → t = t'
  parked : ∀ t, s.core t = none → (s.frame t).pc = .idle ∧ (s.frame t).held = []
  running : ∀ t c, s.core t = some c → FrameOk s.locks s.owner (s.me t) (s.int c) (s.frame t)
  under : ∀ t, StackOk s.locks s.owner t (s.under t)

theorem Frame.mem_held_of_stored {f : Frame ℓ} {l : ℓ} (h : l ∈ f.stored) : l ∈ f.held := by
  unfold Frame.stored at h
  split at h
  · exact mem_of_mem_tail h
  · exact h

theorem Saved.congr {locks locks' : ℓ → Lock} {base : Bool} {ls : List ℓ} (h : Saved locks base ls)
    (heq : ∀ l ∈ ls, (locks' l).prevIntState = (locks l).prevIntState) : Saved locks' base ls := by
  induction ls with
  | nil => trivial
  | cons l ls ih =>
    exact ⟨(heq l mem_cons_self).trans h.1, ih h.2 fun l hl => heq l (mem_cons_of_mem _ hl)⟩

def Others (locks : ℓ → Lock) (owner : ℓ → Option (τ × ℕ)) (id : τ × ℕ) (locks' : ℓ → Lock)
    (owner' : ℓ → Option (τ × ℕ)) : Prop :=
  ∀ l i, i ≠ id → (locks l).lock = true → owner l = some i → locks' l = locks l ∧ owner' l = some i

section

variable {locks locks' : ℓ → Lock} {owner owner' : ℓ → Option (τ × ℕ)} {id : τ × ℕ}

theorem Others.rfl : Others locks owner id locks owner := fun _ _ _ _ ho => ⟨Eq.refl _, ho⟩

theorem Others.update [DecidableEq ℓ] {l : ℓ} {v : Lock} {o : Option (τ × ℕ)}
    (hl : (locks l).lock = false ∨ owner l = some id) :
    Others locks owner id (update locks l v) (update owner l o) := by
  intro l' i hi hset ho
  have hne : l' ≠ l := by
    rintro rfl
    rcases hl with hfree | hown
    · exact Bool.false_ne_true (hfree.symm.trans hset)
    · exact hi (Option.some.inj (ho.symm.trans hown))
  rw [update_of_ne hne, update_of_ne hne]
  exact ⟨Eq.refl _, ho⟩

theorem FrameOk.move {int b : Bool} {f : Frame ℓ} (h : FrameOk locks owner id int f) {pc : Pc ℓ}
    (hst : ({ f with pc := pc } : Frame ℓ).stored = f.stored) (hpc : PcOk b { f with pc := pc }) :
    FrameOk locks owner id b { f with pc := pc } :=
  ⟨h.mine, h.nodup, hst ▸ h.saved, hpc⟩

theorem frameOk_of_idle {b : Bool} {f : Frame ℓ} (hpc : f.pc = .idle) (hheld : f.held = []) :
    FrameOk locks owner id b f :=
  ⟨by simp [hheld], by simp [hheld], by simp [Frame.stored, hpc, hheld, Saved],
    by simp [PcOk, hpc, hheld]⟩

section Lock

variable [DecidableEq ℓ] {int : Bool} {f : Frame ℓ} {l : ℓ}

theorem FrameOk.testAndSet (h : FrameOk locks owner id int f) {n : ℕ} (hpc : f.pc = .test l n) :
    FrameOk (update locks l { locks l with lock := true }) (update owner l (some id)) id int
      { f with pc := .readFlag l, held := l :: f.held } := by
  have hat := h.pc
  simp only [PcOk, hpc] at hat
  have hsaved := h.saved
  simp only [Frame.stored, hpc] at hsaved
  refine ⟨fun l' hl' => ?_, nodup_cons.mpr ⟨hat.1, h.nodup⟩, hsaved.congr fun l' hl' => ?_, _, rfl, hat.2⟩
  · by_cases hl : l' = l
    · simp [hl]
    · rw [update_of_ne hl, update_of_ne hl]
      exact h.mine l' ((mem_cons.mp hl').resolve_left hl)
  · rw [update_of_ne (ne_of_mem_of_not_mem hl' hat.1)]

omit [DecidableEq ℓ] in
theorem FrameOk.top (h : FrameOk locks owner id int f) {ls : List ℓ} (hheld : f.held = l :: ls) :
    ((locks l).lock = true ∧ owner l = some id) ∧ l ∉ ls ∧ ls.Nodup := by
  have hnodup := h.nodup
  rw [hheld] at hnodup
  exact ⟨h.mine l (hheld ▸ mem_cons_self), nodup_cons.mp hnodup⟩

theorem FrameOk.store (h : FrameOk locks owner id int f) (hpc : f.pc = .readFlag l) :
    FrameOk (update locks l { locks l with prevIntState := int }) (update owner l (owner l)) id int
      { f with pc := .mask l } := by
  have hat := h.pc
  simp only [PcOk, hpc] at hat
  obtain ⟨ls, hheld, hint⟩ := hat
  have hsaved := h.saved
  simp only [Frame.stored, hpc, hheld, tail_cons] at hsaved
  obtain ⟨hown, hl, -⟩ := h.top hheld
  refine ⟨fun l' hl' => ?_, h.nodup, ?_, ls, hheld, hint⟩
  · by_cases hll : l' = l
    · subst hll
      simpa using hown
    · rw [update_of_ne hll, update_of_ne hll]
      exact h.mine l' hl'
  · simp only [Frame.stored, hheld]
    refine ⟨by simpa using hint, hsaved.congr fun l' hl' => ?_⟩
    rw [update_of_ne (ne_of_mem_of_not_mem hl' hl)]

theorem FrameOk.clear (h : FrameOk locks owner id int f) {b : Bool} (hpc : f.pc = .clear l b) :
    FrameOk (update locks l { locks l with lock := false }) (update owner l (owner l)) id int
      { f with pc := .unmask b, held := f.held.tail } := by
  have hat := h.pc
  simp only [PcOk, hpc] at hat
  obtain ⟨ls, hheld, hint, hb⟩ := hat
  have hsaved := h.saved
  simp only [Frame.stored, hpc, hheld] at hsaved
  obtain ⟨-, hl, hnodup⟩ := h.top hheld
  simp only [hheld, tail_cons]
  refine ⟨fun l' hl' => ?_, hnodup, Saved.congr hsaved.2 fun l' hl' => ?_, hint, hb⟩
  · have hne := ne_of_mem_of_not_mem hl' hl
    rw [update_of_ne hne, update_of_ne hne]
    exact h.mine l' (hheld ▸ mem_cons_of_mem _ hl')
  · rw [update_of_ne (ne_of_mem_of_not_mem hl' hl)]

omit [DecidableEq ℓ] in
theorem FrameOk.acquire (h : FrameOk locks owner id int f) (hpc : f.pc = .idle) (hl : l ∉ f.held) :
    FrameOk locks owner id int
      { f with pc := .test l 0, base := if f.held = [] then int else f.base } := by
  have hat := h.pc
  simp only [PcOk, hpc] at hat
  have hsaved := h.saved
  simp only [Frame.stored, hpc] at hsaved
  have hmine := h.mine
  have hnodup := h.nodup
  cases hheld : f.held with
  | nil => exact ⟨by simp, by simp, trivial, by simp, by simp [expected]⟩
  | cons l' ls =>
    have hint := hat (by simp [hheld])
    rw [hheld] at hmine hnodup hsaved hl
    exact ⟨hmine, hnodup, hsaved, hl, by simpa [expected] using hint⟩

end Lock

theorem FrameOk.of_others {i : τ × ℕ} {int : Bool} {f : Frame ℓ} (h : FrameOk locks owner i int f)
    (hi : i ≠ id) (ho : Others locks owner id locks' owner') : FrameOk locks' owner' i int f := by
  have hsame : ∀ l ∈ f.held, locks' l = locks l ∧ owner' l = some i := fun l hl =>
    ho l i hi (h.mine l hl).1 (h.mine l hl).2
  refine ⟨fun l hl => ?_, h.nodup, h.saved.congr fun l hl => ?_, h.pc⟩
  · rw [(hsame l hl).1]
    exact ⟨(h.mine l hl).1, (hsame l hl).2⟩
  · rw [(hsame l (Frame.mem_held_of_stored hl)).1]

theorem StackOk.of_others {t : τ} {fs : List (Frame ℓ)} (h : StackOk locks owner t fs)
    (hid : ∀ d < fs.length, (t, d) ≠ id) (ho : Others locks owner id locks' owner') :
    StackOk locks' owner' t fs := by
  induction fs with
  | nil => trivial
  | cons f fs ih =>
    exact ⟨h.1.of_others (hid _ (Nat.lt_succ_self _)) ho,
      ih h.2 fun d hd => hid d (Nat.lt_succ_of_lt hd)⟩

end

variable [DecidableEq κ] [DecidableEq τ]

variable {s s' : State κ τ ℓ} {t : τ} {c : κ} {f : Frame ℓ} {b : Bool} {locks : ℓ → Lock}
  {owner : ℓ → Option (τ × ℕ)} {o : τ × Act τ ℓ}

/-- The invariant after a step of thread `t` that changes its own code, the flag of its core, and locks
that are free or its own. -/
theorem Inv.set (h : Inv s) (hc : s.core t = some c) {fs : List (Frame ℓ)}
    (ho : Others s.locks s.owner (s.me t) locks owner) (hf : FrameOk locks owner (t, fs.length) b f)
    (hfs : StackOk locks owner t fs) :
    Inv { { s with locks := locks, owner := owner }.put t c f b with
      under := update s.under t fs } where
  alone := h.alone
  parked t' ht' := by
    have hne : t' ≠ t := by
      rintro rfl
      exact Option.some_ne_none c (hc.symm.trans ht')
    simpa [State.put, hne] using h.parked t' ht'
  running t' c' ht' := by
    by_cases hne : t' = t
    · subst hne
      cases hc.symm.trans ht'
      simpa [State.put, State.me] using hf
    · have hc' : c' ≠ c := by
        rintro rfl
        exact hne (h.alone t' t c' ht' hc)
      have hok := (h.running t' c' ht').of_others (fun heq => hne (Prod.mk.inj heq).1) ho
      simpa [State.put, State.me, hne, hc'] using hok
  under t' := by
    by_cases hne : t' = t
    · subst hne
      simpa [State.put] using hfs
    · have hok := (h.under t').of_others (fun d _ heq => hne (Prod.mk.inj heq).1) ho
      simpa [State.put, hne] using hok

theorem Inv.put (h : Inv s) (hc : s.core t = some c)
    (ho : Others s.locks s.owner (s.me t) locks owner) (hf : FrameOk locks owner (s.me t) b f) :
    Inv ({ s with locks := locks, owner := owner }.put t c f b) := by
  have hfs := (h.under t).of_others (fun d hd heq => Nat.ne_of_lt hd (Prod.mk.inj heq).2) ho
  simpa [State.put] using h.set hc ho hf hfs

theorem Inv.put_frame (h : Inv s) (hc : s.core t = some c)
    (hf : FrameOk s.locks s.owner (s.me t) b f) : Inv (s.put t c f b) :=
  h.put hc Others.rfl hf

variable [DecidableEq ℓ]

theorem advance_inv (h : Inv s) (hc : s.core t = some c) (hs' : advance s t c = some s') :
    Inv s' := by
  have hok := h.running t c hc
  have hat := hok.pc
  unfold advance at hs'
  cases hpc : (s.frame t).pc with
  | idle => simp [hpc] at hs'
  | test l n =>
    simp only [PcOk, hpc] at hat
    simp only [hpc] at hs'
    split at hs'
    · cases hs'
      exact h.put_frame hc (hok.move (by simp [Frame.stored, hpc]) hat)
    · rename_i hfree
      cases hs'
      exact h.put hc (Others.update (Or.inl (by simpa using hfree))) (hok.testAndSet hpc)
  | spin l n =>
    simp only [PcOk, hpc] at hat
    simp only [hpc] at hs'
    split_ifs at hs'
    · cases hs'
      exact h.put_frame hc (hok.move (by simp [Frame.stored, hpc]) hat)
    · cases hs'
      exact h.put_frame hc (hok.move (by simp [Frame.stored, hpc]) hat)
  | readFlag l =>
    simp only [PcOk, hpc] at hat
    simp only [hpc] at hs'
    cases hs'
    obtain ⟨ls, hheld, -⟩ := hat
    exact h.put hc (Others.update (Or.inr (hok.top hheld).1.2)) (hok.store hpc)
  | mask l =>
    simp only [hpc] at hs'
    cases hs'
    exact h.put_frame hc (hok.move (by simp [Frame.stored, hpc]) fun _ => rfl)
  | release l =>
    simp only [PcOk, hpc] at hat
    simp only [hpc] at hs'
    cases hs'
    obtain ⟨ls, hheld, hint⟩ := hat
    have hsaved := hok.saved
    simp only [Frame.stored, hpc, hheld] at hsaved
    exact h.put_frame hc (hok.move (by simp [Frame.stored, hpc]) ⟨ls, hheld, hint, hsaved.1⟩)
  | clear l b =>
    simp only [PcOk, hpc] at hat
    simp only [hpc] at hs'
    cases hs'
    obtain ⟨ls, hheld, -⟩ := hat
    exact h.put hc (Others.update (Or.inr (hok.top hheld).1.2)) (hok.clear hpc)
  | unmask b =>
    simp only [PcOk, hpc] at hat
    simp only [hpc] at hs'
    cases hs'
    refine h.put_frame hc (hok.move (by simp [Frame.stored, hpc]) fun hne => ?_)
    obtain ⟨l, ls, hheld⟩ := exists_cons_of_ne_nil hne
    rw [hheld] at hat
    simp [hat.1, hat.2, expected]

omit [DecidableEq κ] [DecidableEq ℓ] in
theorem core_of_yield (h : Inv s) {next t' : τ} {c' : κ} (hc : s.core t = some c)
    (ht' : update (update s.core t none) next (some c) t' = some c') :
    t' = next ∧ c' = c ∨ s.core t' = some c' ∧ c' ≠ c := by
  by_cases hn : t' = next
  · simp only [hn, update_self] at ht'
    exact Or.inl ⟨hn, (Option.some.inj ht').symm⟩
  · have ht : t' ≠ t := by
      rintro rfl
      simp [hn] at ht'
    rw [update_of_ne hn, update_of_ne ht] at ht'
    exact Or.inr ⟨ht', fun heq => ht (h.alone t' t c (heq ▸ ht') hc)⟩

omit [DecidableEq ℓ] in
theorem yield_inv (h : Inv s) {next : τ} (hc : s.core t = some c) (hpc : (s.frame t).pc = .idle)
    (hheld : (s.frame t).held = []) (hnext : s.core next = none) :
    Inv { s with core := update (update s.core t none) next (some c), int := update s.int c true } := by
  refine ⟨fun t₁ t₂ c' h₁ h₂ => ?_, fun t' ht' => ?_, fun t' c' ht' => ?_, h.under⟩
  · rcases core_of_yield h hc h₁ with ⟨rfl, rfl⟩ | ⟨h₁, hc₁⟩ <;>
      rcases core_of_yield h hc h₂ with ⟨rfl, hc₂⟩ | ⟨h₂, hc₂⟩
    · rfl
    · exact absurd rfl hc₂
    · exact absurd hc₂ hc₁
    · exact h.alone t₁ t₂ c' h₁ h₂
  · by_cases ht : t' = t
    · subst ht
      exact ⟨hpc, hheld⟩
    · have hn : t' ≠ next := by
        rintro rfl
        simp at ht'
      refine h.parked t' ?_
      simpa [hn, ht] using ht'
  · rcases core_of_yield h hc ht' with ⟨rfl, rfl⟩ | ⟨ht', hc'⟩
    · exact frameOk_of_idle (h.parked t' hnext).1 (h.parked t' hnext).2
    · simpa [State.me, hc'] using h.running t' c' ht'

theorem act_inv (h : Inv s) (hc : s.core t = some c) {a : Act τ ℓ} (hs' : act s t c a = some s') :
    Inv s' := by
  have hok := h.running t c hc
  cases a with
  | acquire l =>
    obtain ⟨⟨hpc, hl⟩, hs'⟩ := Option.ite_none_right_eq_some.mp hs'
    cases hs'
    exact h.put_frame hc (hok.acquire hpc hl)
  | release =>
    simp only [act] at hs'
    split at hs'
    · rename_i l ls hpc hheld
      cases hs'
      have hat := hok.pc
      simp only [PcOk, hpc] at hat
      exact h.put_frame hc
        (hok.move (by simp [Frame.stored, hpc]) ⟨ls, hheld, hat (by simp [hheld])⟩)
    · cases hs'
  | advance => exact advance_inv h hc hs'
  | interrupt =>
    obtain ⟨hint, hs'⟩ := Option.ite_none_right_eq_some.mp hs'
    cases hs'
    rw [hint] at hok
    exact h.set hc Others.rfl (frameOk_of_idle rfl rfl) ⟨hok, h.under t⟩
  | iret =>
    simp only [act] at hs'
    split at hs'
    · cases hs'
    · rename_i f fs hunder
      obtain ⟨-, hs'⟩ := Option.ite_none_right_eq_some.mp hs'
      cases hs'
      have hstack := h.under t
      rw [hunder] at hstack
      exact h.set hc Others.rfl hstack.1 hstack.2
  | setInt b =>
    obtain ⟨⟨hpc, hheld⟩, hs'⟩ := Option.ite_none_right_eq_some.mp hs'
    cases hs'
    exact h.put_frame hc (frameOk_of_idle hpc hheld)
  | yield next =>
    obtain ⟨⟨hpc, hheld⟩, hs'⟩ := Option.ite_none_right_eq_some.mp hs'
    split_ifs at hs' with hself hnext
    · cases hs'
      exact h.put_frame hc (frameOk_of_idle hpc hheld)
    · cases hs'
      exact yield_inv h hc hpc hheld hnext

theorem inv_of_step (h : Inv s) (hs' : step s o = some s') : Inv s' := by
  obtain ⟨c, hc, hs'⟩ := Option.bind_eq_some_iff.mp hs'
  exact act_inv h hc hs'

omit [DecidableEq κ] [DecidableEq τ] [DecidableEq ℓ] in
theorem Quiet.inv (h : Quiet s) : Inv s :=
  ⟨h.alone, fun t _ => ⟨h.idle t, h.held t⟩, fun t _ _ => frameOk_of_idle (h.idle t) (h.held t),
    fun t => by rw [h.under t]; trivial⟩

theorem restored_of_inv (h : Inv s) (hs' : step s o = some s') : Restored s o s' := by
  obtain ⟨t, a⟩ := o
  rintro c b hc rfl hpc hheld
  have hat := (h.running t c hc).pc
  simp only [PcOk, hpc, hheld, expected] at hat
  obtain ⟨c', hc', hs'⟩ := Option.bind_eq_some_iff.mp hs'
  cases hc.symm.trans hc'
  simp only [act, advance, hpc] at hs'
  cases hs'
  cases b <;> simp [State.put, hat.1, ← hat.2]

/-! ## Holding a lock with interrupts enabled -/

/-- Interrupted code holds no lock, nor does code that can be interrupted. -/
structure Clear (s : State κ τ ℓ) : Prop where
  current : ∀ t c, s.core t = some c → s.int c = true → (s.frame t).held = []
  under : ∀ t, ∀ f ∈ s.under t, f.held = []

omit [DecidableEq κ] [DecidableEq τ] [DecidableEq ℓ] in
theorem Clear.safe (h : Clear s) : Safe s := by
  intro t c hc hint f hf
  rcases mem_cons.mp hf with rfl | hf
  · exact h.current t c hc hint
  · exact h.under t f hf

omit [DecidableEq ℓ] in
theorem Clear.set (hI : Inv s) (h : Clear s) (hc : s.core t = some c) {fs : List (Frame ℓ)}
    (hb : b = true → f.held = []) (hfs : ∀ g ∈ fs, g.held = []) :
    Clear { { s with locks := locks, owner := owner }.put t c f b with
      under := update s.under t fs } where
  current t' c' ht' hint := by
    by_cases hne : t' = t
    · subst hne
      cases hc.symm.trans ht'
      simp only [State.put, update_self] at hint ⊢
      exact hb hint
    · have hc' : c' ≠ c := by
        rintro rfl
        exact hne (hI.alone t' t c' ht' hc)
      simp only [State.put, update_of_ne hne, update_of_ne hc'] at hint ⊢
      exact h.current t' c' ht' hint
  under t' g hg := by
    by_cases hne : t' = t
    · subst hne
      simp only [update_self] at hg
      exact hfs g hg
    · simp only [update_of_ne hne] at hg
      exact h.under t' g hg

omit [DecidableEq ℓ] in
theorem Clear.put (hI : Inv s) (h : Clear s) (hc : s.core t = some c) (hb : b = true → f.held = []) :
    Clear ({ s with locks := locks, owner := owner }.put t c f b) := by
  have hset : Clear { { s with locks := locks, owner := owner }.put t c f b with
      under := update s.under t (s.under t) } := h.set hI hc hb (h.under t)
  rwa [update_eq_self] at hset

theorem advance_clear (hI : Inv s) (h : Clear s) (hc : s.core t = some c)
    (hm : Masked s (t, .advance)) (hs' : advance s t c = some s') : Clear s' := by
  have hat := (hI.running t c hc).pc
  have hcur := h.current t c hc
  unfold advance at hs'
  cases hpc : (s.frame t).pc with
  | idle => simp [hpc] at hs'
  | test l n =>
    simp only [hpc] at hs'
    split at hs'
    · cases hs'
      exact h.put hI hc hcur
    · rename_i hfree
      cases hs'
      have hint := hm rfl c hc l (by simp [Pc.tested, hpc]) (by simpa using hfree)
      exact h.put hI hc fun htrue => absurd (hint.symm.trans htrue) Bool.false_ne_true
  | spin l n =>
    simp only [hpc] at hs'
    split_ifs at hs' <;> cases hs'
    · exact h.put hI hc hcur
    · exact h.put hI hc hcur
  | readFlag l =>
    simp only [hpc] at hs'
    cases hs'
    exact h.put hI hc hcur
  | mask l =>
    simp only [hpc] at hs'
    cases hs'
    exact h.put hI hc fun htrue => absurd htrue Bool.false_ne_true
  | release l =>
    simp only [hpc] at hs'
    cases hs'
    exact h.put hI hc hcur
  | clear l b =>
    simp only [hpc] at hs'
    cases hs'
    exact h.put hI hc fun hint => by rw [hcur hint, tail_nil]
  | unmask b =>
    simp only [PcOk, hpc] at hat
    simp only [hpc] at hs'
    cases hs'
    -- only the release of the outermost lock unmasks
    refine h.put hI hc fun htrue => ?_
    cases hheld : (s.frame t).held with
    | nil => rfl
    | cons l ls => simp [hat.1, hat.2, hheld, expected] at htrue

theorem act_clear (hI : Inv s) (h : Clear s) (hc : s.core t = some c) {a : Act τ ℓ}
    (hm : Masked s (t, a)) (hs' : act s t c a = some s') : Clear s' := by
  have hcur := h.current t c hc
  cases a with
  | acquire l =>
    obtain ⟨-, hs'⟩ := Option.ite_none_right_eq_some.mp hs'
    cases hs'
    exact h.put hI hc hcur
  | release =>
    simp only [act] at hs'
    split at hs' <;> cases hs'
    exact h.put hI hc hcur
  | advance => exact advance_clear hI h hc hm hs'
  | interrupt =>
    obtain ⟨hint, hs'⟩ := Option.ite_none_right_eq_some.mp hs'
    cases hs'
    exact h.set hI hc (fun _ => rfl) (forall_mem_cons.mpr ⟨hcur hint, h.under t⟩)
  | iret =>
    simp only [act] at hs'
    split at hs'
    · cases hs'
    · rename_i f fs hunder
      obtain ⟨-, hs'⟩ := Option.ite_none_right_eq_some.mp hs'
      cases hs'
      have hmem := h.under t
      rw [hunder, forall_mem_cons] at hmem
      exact h.set hI hc (fun _ => hmem.1) hmem.2
  | setInt b =>
    obtain ⟨⟨-, hheld⟩, hs'⟩ := Option.ite_none_right_eq_some.mp hs'
    cases hs'
    exact h.put hI hc fun _ => hheld
  | yield next =>
    obtain ⟨⟨-, hheld⟩, hs'⟩ := Option.ite_none_right_eq_some.mp hs'
    split_ifs at hs' with hself hnext
    · cases hs'
      exact h.put hI hc fun _ => hheld
    · cases hs'
      refine ⟨fun t' c' ht' hint => ?_, h.under⟩
      rcases core_of_yield hI hc ht' with ⟨rfl, -⟩ | ⟨ht', hc'⟩
      · exact (hI.parked t' hnext).2
      · simp only [update_of_ne hc'] at hint
        exact h.current t' c' ht' hint

theorem clear_of_step (hI : Inv s) (h : Clear s) (hm : Masked s o) (hs' : step s o = some s') :
    Clear s' := by
  obtain ⟨c, hc, hs'⟩ := Option.bind_eq_some_iff.mp hs'
  exact act_clear hI h hc hm hs'

theorem masked_of_safe (h : ∀ s', step s o = some s' → Safe s') : Masked s o := by
  obtain ⟨t, a⟩ := o
  rintro ha c hc l hl hfree
  cases ha
  by_contra hint
  cases hpc : (s.frame t).pc with
  | test l' n =>
    simp only [Pc.tested, hpc, Option.mem_some_iff] at hl
    subst hl
    have hstep : step s (t, .advance) =
        some ((s.setLock l' { s.locks l' with lock := true } (some (s.me t))).put t c
          { s.frame t with pc := .readFlag l', held := l' :: (s.frame t).held } (s.int c)) := by
      simp [step, show s.core t = some c from hc, act, advance, hpc, hfree]
    have hheld := h _ hstep t c hc (by simpa [State.put] using hint) _ mem_cons_self
    simp [State.put] at hheld
  | _ => simp [Pc.tested, hpc] at hl

/-- From a start where no lock is held, no lock is ever held with interrupts enabled and every last
release restores the flag, exactly if each test-and-set that takes a lock is made with interrupts
masked. -/
theorem no_preemption_iff {s : State κ τ ℓ} (h : Quiet s) (ops : List (τ × Act τ ℓ)) :
    Meets step (fun s o => ∀ s', step s o = some s' → Safe s' ∧ Restored s o s') s ops ↔
      Meets step Masked s ops := by
  have hclear : Clear s := ⟨fun t _ _ _ => h.held t, fun t f hf => by simp [h.under t] at hf⟩
  refine meets_iff_of_step (I := fun s => Inv s ∧ Clear s) (fun s o hI => ⟨fun hC => ?_, fun hD => ?_⟩)
    (fun s o s' hI hD hs' => ⟨inv_of_step hI.1 hs', clear_of_step hI.1 hI.2 hD hs'⟩) ⟨h.inv, hclear⟩
  · exact masked_of_safe fun s' hs' => (hC s' hs').1
  · intro s' hs'
    exact ⟨(clear_of_step hI.1 hI.2 hD hs').safe, restored_of_inv hI.1 hs'⟩

/-- One core and one thread; interrupts are masked or not. -/
def oneCore (b : Bool) : State Unit Unit (Fin 2) :=
  ⟨fun _ => ⟨false, false⟩, fun _ => none, fun _ => b, fun _ => some (), fun _ => .start, fun _ => []⟩

theorem oneCore_quiet (b : Bool) : Quiet (oneCore b) :=
  ⟨fun _ _ _ _ _ => rfl, fun _ => rfl, fun _ => rfl, fun _ => rfl⟩

/-- Two locks are taken, one inside the other, and released up to the last step. -/
def nestedCalls : List (Unit × Act Unit (Fin 2)) :=
  [.acquire 0, .advance, .advance, .advance, .acquire 1, .advance, .advance, .advance,
    .release, .advance, .advance, .advance, .release, .advance, .advance].map ((), ·)

/-- The calls with interrupts masked from the start. -/
theorem no_preemption_nested :
    Meets step (fun s o => ∀ s', step s o = some s' → Safe s' ∧ Restored s o s') (oneCore false)
      (nestedCalls ++ [((), .advance)]) :=
  (no_preemption_iff (oneCore_quiet false) _).mpr
    (by decide)

/-- With interrupts enabled, the lock is held and the interrupt handler may run after the first step. The
handler that asks for the same lock finds it set by the code it interrupted. -/
theorem preempted_after_test_and_set :
    (∃ s, run step (oneCore true) [((), .acquire 0), ((), .advance)] = some s ∧ ¬Safe s) ∧
      ∃ s, run step (oneCore true) [((), .acquire 0), ((), .advance), ((), .interrupt),
        ((), .acquire 0), ((), .advance)] = some s ∧ (s.frame ()).pc = .spin 0 0 ∧
        (s.under ()).map Frame.held = [[0]] ∧ (s.locks 0).lock = true := by
  refine ⟨⟨_, rfl, fun h => ?_⟩, _, rfl, rfl, rfl, rfl⟩
  have hheld := h () () rfl rfl _ mem_cons_self
  exact absurd hheld (by decide)

/-! ## In every run -/

/-- The release of the last lock leaves the flag as it was before the first acquire, in every run. -/
theorem flag_restored (h : Quiet s) (ops : List (τ × Act τ ℓ)) :
    Meets step (fun s o => ∀ s', step s o = some s' → Restored s o s') s ops :=
  meets_of_step (fun _ _ hI _ _ hs' => restored_of_inv hI hs') (fun _ _ _ hI _ hs' => inv_of_step hI hs')
    h.inv (meets_true s ops)

/-- The calls with interrupts enabled at the start: the last step enables them again. -/
theorem flag_restored_enabled :
    ∃ s s', run step (oneCore true) nestedCalls = some s ∧ s.int () = false ∧
      step s ((), .advance) = some s' ∧ s'.int () = true := by
  obtain ⟨s, hrun, hint, hpc, hheld, hbase⟩ : ∃ s, run step (oneCore true) nestedCalls = some s ∧
      s.int () = false ∧ (s.frame ()).pc = .unmask true ∧ (s.frame ()).held = [] ∧
      (s.frame ()).base = true := ⟨_, rfl, rfl, rfl, rfl, rfl⟩
  obtain ⟨s', hs'⟩ : ∃ s', step s ((), .advance) = some s' := by
    cases hrun
    exact ⟨_, rfl⟩
  have hlast := meets_last hrun (flag_restored (oneCore_quiet true) (nestedCalls ++ [((), .advance)])) s' hs'
  have hcore : s.core () = some () := by
    cases hrun
    rfl
  exact ⟨s, s', hrun, hint, hs', (hlast () true hcore rfl hpc hheld).trans hbase⟩

omit [DecidableEq κ] [DecidableEq τ] [DecidableEq ℓ] in
theorem StackOk.of_suffix {locks : ℓ → Lock} {owner : ℓ → Option (τ × ℕ)} {f : Frame ℓ}
    {fs gs : List (Frame ℓ)} (h : StackOk locks owner t gs) (hs : f :: fs <:+ gs) :
    FrameOk locks owner (t, fs.length) true f := by
  induction gs with
  | nil => exact absurd (suffix_nil.mp hs) (cons_ne_nil _ _)
  | cons g gs ih =>
    rcases suffix_cons_iff.mp hs with heq | hs
    · cases heq
      exact h.1
    · exact ih h.2 hs

omit [DecidableEq κ] [DecidableEq τ] [DecidableEq ℓ] in
theorem Inv.mine (h : Inv s) {f : Frame ℓ} {fs : List (Frame ℓ)} (hf : f :: fs <:+ s.frame t :: s.under t)
    {l : ℓ} (hl : l ∈ f.held) : (s.locks l).lock = true ∧ s.owner l = some (t, fs.length) := by
  rcases suffix_cons_iff.mp hf with heq | hf
  · cases heq
    cases hc : s.core t with
    | none => exact absurd hl (by simp [(h.parked t hc).2])
    | some c => exact (h.running t c hc).mine l hl
  · exact ((h.under t).of_suffix hf).mine l hl

/-- A lock is held by one piece of code at a time: of all threads, and of the code of a thread with its
interrupt handlers, which is told apart by its depth. -/
theorem mutual_exclusion {ops : List (τ × Act τ ℓ)} (h : Quiet s) (hrun : run step s ops = some s') {l : ℓ}
    {t t' : τ} {f f' : Frame ℓ} {fs fs' : List (Frame ℓ)} (hf : f :: fs <:+ s'.frame t :: s'.under t)
    (hf' : f' :: fs' <:+ s'.frame t' :: s'.under t') (hl : l ∈ f.held) (hl' : l ∈ f'.held) :
    (s'.locks l).lock = true ∧ t = t' ∧ fs.length = fs'.length := by
  have hinv : Inv s' := run_induction (fun _ _ _ hI hs' => inv_of_step hI hs') h.inv hrun
  obtain ⟨hset, hown⟩ := hinv.mine hf hl
  have heq := Option.some.inj (hown.symm.trans (hinv.mine hf' hl').2)
  exact ⟨hset, congrArg Prod.fst heq, congrArg Prod.snd heq⟩

/-- Two threads, each on its own core. -/
def twoCores : State (Fin 2) (Fin 2) Unit :=
  ⟨fun _ => ⟨false, false⟩, fun _ => none, fun _ => true, some, fun _ => .start, fun _ => []⟩

/-- Both threads ask for the lock. The first one takes it, and no code of the second one has it. -/
theorem mutual_exclusion_twoCores :
    ∃ s, run step twoCores [(0, .acquire ()), (1, .acquire ()), (0, .advance), (1, .advance)] = some s ∧
      (s.frame 0).held = [()] ∧ (s.frame 1).pc = .spin () 0 ∧
      ∀ f fs, f :: fs <:+ s.frame 1 :: s.under 1 → () ∉ f.held := by
  have hquiet : Quiet twoCores :=
    ⟨fun t t' c ht ht' => Option.some.inj (ht.trans ht'.symm), fun _ => rfl, fun _ => rfl, fun _ => rfl⟩
  obtain ⟨s, hrun, hheld, hpc⟩ : ∃ s, run step twoCores
      [(0, .acquire ()), (1, .acquire ()), (0, .advance), (1, .advance)] = some s ∧
      (s.frame 0).held = [()] ∧ (s.frame 1).pc = .spin () 0 := ⟨_, rfl, rfl, rfl⟩
  refine ⟨s, hrun, hheld, hpc, fun f fs hf hmem => ?_⟩
  have hfirst : () ∈ (s.frame 0).held := by simp [hheld]
  obtain ⟨-, heq, -⟩ := mutual_exclusion hquiet hrun suffix_rfl hf hfirst hmem
  exact absurd heq (by decide)

end LykOS.Spinlock
