import LykOS.Lib.X86

/-!
# The entry of interrupts

The stubs of `arch/x86_64/tables/idt.asm`. A stub adds the vector, and an error code where it expects none
from the processor, saves the registers, calls `arch_int_handler`, and goes back with `iretq`. The interrupted
code goes on as if nothing had happened exactly if the stub and the processor agree about the error code
(`interrupt_transparent_iff`) and `arch_int_handler` of `arch/x86_64/int.c`, which finds the vector in the
saved state, does not halt (`dispatched_iff`).
-/

namespace LykOS.Interrupt

open X86

/-- The vectors with an error code, by the second argument of `ISR`. -/
def hasErrorCode (vector : ℕ) : Bool := vector ∈ [8, 10, 11, 12, 13, 14, 17, 21, 24, 28, 29, 30]

/-- The registers that `isr_stub` saves, in the order of the pushes. -/
def pushedRegs : List Reg :=
  [.rax, .rbx, .rcx, .rdx, .rbp, .rsi, .rdi, .r8, .r9, .r10, .r11, .r12, .r13, .r14, .r15]

/-- What the processor pushes besides an error code, and `iretq` takes back. -/
structure Context where
  rip : UInt64
  cs : UInt64
  rflags : UInt64
  rsp : UInt64
  ss : UInt64

def Context.words (x : Context) : List UInt64 := [x.rip, x.cs, x.rflags, x.rsp, x.ss]

/-- The end of an interrupt, with the state in which `arch_int_handler` was entered. -/
structure Returned where
  context : Context
  cpu : Cpu
  entered : Cpu

/-- `swapgs` for code that was interrupted in user mode. -/
def swapIf (cs : UInt64) (c : Cpu) : Cpu := if cs &&& 3 = 0 then c else c.swapgs

def swapgsConditional (c : Cpu) : Option Cpu := (c.mem (c.regs .rsp + 24)).map fun cs => swapIf cs c

def iretq (entered c : Cpu) : Option Returned := do
  let rip ← c.mem (c.regs .rsp)
  let cs ← c.mem (c.regs .rsp + 8)
  let rflags ← c.mem (c.regs .rsp + 8 + 8)
  let rsp ← c.mem (c.regs .rsp + 8 + 8 + 8)
  let ss ← c.mem (c.regs .rsp + 8 + 8 + 8 + 8)
  return ⟨⟨rip, cs, rflags, rsp, ss⟩, c.set .rsp rsp, entered⟩

/-- The pushes of `isr_<vector>`. -/
def isrPush (vector : ℕ) (c : Cpu) : Option Cpu := do
  let c ← if hasErrorCode vector then some c else c.push 0
  c.push (UInt64.ofNat vector)

section

-- `arch_int_handler` up to its return, and the address behind its call
variable (handler : Cpu → Option Cpu) (back : UInt64)

/-- `isr_stub` up to the first instruction of `arch_int_handler`. -/
def isrStubEnter (c : Cpu) : Option Cpu := do
  let c ← swapgsConditional c
  let c ← exec (pushedRegs.map .push : List (Instr Empty)) c
  let c ← exec ([.zero .rbp, .mov .rdi .rsp] : List (Instr Empty)) c
  c.push back

def isrStub (c : Cpu) : Option Returned := do
  let entered ← isrStubEnter back c
  let c ← handler entered
  let c ← exec (pushedRegs.reverse.map .pop : List (Instr Empty)) c
  let c ← swapgsConditional c
  iretq entered (c.set .rsp (c.regs .rsp + 16))

/-- The stub `isr_<vector>`. -/
def isr (vector : ℕ) (c : Cpu) : Option Returned := (isrPush vector c).bind (isrStub handler back)

/-- The state in which an interrupt enters `arch_int_handler`. -/
def isrEnter (vector : ℕ) (c : Cpu) : Option Cpu := (isrPush vector c).bind (isrStubEnter back)

/-- The interrupted code goes on, and the handler has seen its `cpu_state_t`, with the kernel's `gs`. -/
structure Transparent (vector : ℕ) (error : Option UInt64) (x : Context) (c : Cpu) (r : Returned) :
    Prop where
  context : r.context = x
  regs : ∀ q, q ≠ .rsp → r.cpu.regs q = c.regs q
  gs : r.cpu.gs = c.gs ∧ r.cpu.kernelGs = c.kernelGs
  state : Frame r.entered.mem (r.entered.regs .rdi)
    (pushedRegs.reverse.map c.regs ++ UInt64.ofNat vector :: error.getD 0 :: x.words)
  kernel : r.entered.gs = if x.cs &&& 3 = 0 then c.gs else c.kernelGs

/-- From `k` to `c`, what is on the stack of the interrupt is kept. -/
structure Kept (k c : Cpu) : Prop where
  mem : ∀ a ∈ above (k.regs .rsp + 8) (pushedRegs.length + 7), c.mem a = k.mem a
  gs : c.gs = k.gs
  kernelGs : c.kernelGs = k.kernelGs

/-- Entered in the state `k`, the handler returns, and keeps what is on the stack of the interrupt. -/
def Keeps (k : Cpu) : Prop := ∃ c, handler k = some c ∧ c.regs .rsp = k.regs .rsp + 8 ∧ Kept k c

/-- The processor has pushed the context and perhaps an error code, and there is room for the stub. -/
structure Delivered (error : Option UInt64) (x : Context) (c : Cpu) : Prop where
  frame : Frame c.mem (c.regs .rsp) (error.toList ++ x.words)
  mapped : ∀ a ∈ below (c.regs .rsp) 18, c.mem a ≠ none

end

section

variable {handler : Cpu → Option Cpu} {c : Cpu} {v w rip cs : UInt64} {ws : List UInt64}

theorem swapIf_eq : swapIf cs c = { c with
    gs := if cs &&& 3 = 0 then c.gs else c.kernelGs
    kernelGs := if cs &&& 3 = 0 then c.kernelGs else c.gs } := by
  unfold swapIf
  split_ifs <;> rfl

theorem swapgsConditional_eq (h : Frame c.mem (c.regs .rsp) (v :: w :: rip :: cs :: ws)) :
    swapgsConditional c = some (swapIf cs c) := by
  have hplace : c.regs .rsp + 24 = c.regs .rsp + 8 + 8 + 8 := by grind
  rw [swapgsConditional, hplace, h.2.2.2.1]
  rfl

theorem iretq_words {entered : Cpu} {x : Context} (h : Frame c.mem (c.regs .rsp) x.words) :
    iretq entered c = some ⟨x, c.set .rsp x.rsp, entered⟩ := by
  obtain ⟨h1, h2, h3, h4, h5, -⟩ := h
  rw [iretq, h1, h2, h3, h4, h5]
  rfl

theorem iretq_rip {entered : Cpu} {r : Returned} (hv : c.mem (c.regs .rsp) = some v)
    (h : iretq entered c = some r) : r.context.rip = v := by
  obtain ⟨rip, hrip, h⟩ := Option.bind_eq_some_iff.mp h
  obtain ⟨_, -, h⟩ := Option.bind_eq_some_iff.mp h
  obtain ⟨_, -, h⟩ := Option.bind_eq_some_iff.mp h
  obtain ⟨_, -, h⟩ := Option.bind_eq_some_iff.mp h
  obtain ⟨_, -, h⟩ := Option.bind_eq_some_iff.mp h
  cases h
  exact Option.some.inj (hrip.symm.trans hv)

/-- What the stub leaves for `iretq`, on any words: the first two are dropped. -/
structure Unwound (c p entered : Cpu) (v w rip cs : UInt64) (ws : List UInt64) : Prop where
  frame : Frame p.mem (p.regs .rsp) (rip :: cs :: ws)
  regs : ∀ q, q ≠ .rsp → p.regs q = c.regs q
  gs : p.gs = c.gs ∧ p.kernelGs = c.kernelGs
  state : Frame entered.mem (entered.regs .rdi)
    (pushedRegs.reverse.map c.regs ++ v :: w :: rip :: cs :: ws)
  kernel : entered.gs = if cs &&& 3 = 0 then c.gs else c.kernelGs

/-- What `arch_int_handler` finds: the words on the stack behind its return address, and `rdi` at them. -/
structure Entered (c k : Cpu) (cs : UInt64) (words : List UInt64) : Prop where
  frame : Frame k.mem (k.regs .rsp + 8) (pushedRegs.reverse.map c.regs ++ words)
  rdi : k.regs .rdi = k.regs .rsp + 8
  gs : k.gs = if cs &&& 3 = 0 then c.gs else c.kernelGs
  kernelGs : k.kernelGs = if cs &&& 3 = 0 then c.kernelGs else c.gs

theorem isrStubEnter_eq (back : UInt64)
    (hframe : Frame c.mem (c.regs .rsp) (v :: w :: rip :: cs :: ws)) (hlen : ws.length ≤ 3)
    (hmapped : ∀ a ∈ below (c.regs .rsp) 16, c.mem a ≠ none) :
    ∃ k, isrStubEnter back c = some k ∧ Entered c k cs (v :: w :: rip :: cs :: ws) := by
  set words := v :: w :: rip :: cs :: ws with hwords
  obtain ⟨s, hpushes, hpushed, hsframe⟩ := exec_pushes Empty (c := swapIf cs c)
    (show Reg.rsp ∉ pushedRegs by decide)
    (by rw [swapIf_eq]; exact fun a ha => hmapped a (below_subset_succ ha))
    (by rw [swapIf_eq]; exact hframe) (by simp [pushedRegs, hwords]; omega)
  rw [swapIf_eq] at hpushed hsframe
  have hnext : s.mem (s.regs .rsp - 8) ≠ none := by
    refine hpushed.mapped _ ?_
    rw [hpushed.rsp]
    exact hmapped _ sub_mem_below
  set s' := ({ s.set .rbp 0 with same := true, less := false } : Cpu).set .rdi (s.regs .rsp)
  obtain ⟨k, hpush, hkpushed, hkframe⟩ := push_spec (c := s') back hnext
    (show Frame s'.mem (s'.regs .rsp) (pushedRegs.reverse.map c.regs ++ words) from hsframe)
    (by simp [pushedRegs, hwords]; omega)
  refine ⟨k, ?_, hkframe.2, ?_, hkpushed.gs.trans hpushed.gs, hkpushed.kernelGs.trans hpushed.kernelGs⟩
  · rw [isrStubEnter, swapgsConditional_eq hframe]
    simp only [bind, Option.bind, hpushes]
    exact hpush
  · rw [hkpushed.regs .rdi (by decide), hkpushed.sp_eq]
    show s.regs .rsp = s.regs .rsp - 8 + 8
    grind

theorem isrStub_eq {back : UInt64} (hk : ∀ k, isrStubEnter back c = some k → Keeps handler k)
    (hframe : Frame c.mem (c.regs .rsp) (v :: w :: rip :: cs :: ws)) (hlen : ws.length ≤ 3)
    (hmapped : ∀ a ∈ below (c.regs .rsp) 16, c.mem a ≠ none) :
    ∃ entered p, isrStub handler back c = iretq entered p ∧ Unwound c p entered v w rip cs ws := by
  obtain ⟨k, hentered, he⟩ := isrStubEnter_eq back hframe hlen hmapped
  set words := v :: w :: rip :: cs :: ws with hwords
  have hcount : (pushedRegs.reverse.map c.regs ++ words).length ≤ 22 := by
    simp [hwords, pushedRegs]
    omega
  obtain ⟨c₁, hcall, hsp, hkept⟩ := hk k hentered
  have hc₁ : Frame c₁.mem (c₁.regs .rsp) (pushedRegs.reverse.map c.regs ++ words) := by
    rw [hsp]
    exact he.frame.congr fun a ha => hkept.mem a (above_subset hcount ha)
  obtain ⟨p, hpops, hpopped, hpframe⟩ := exec_pops Empty (show Reg.rsp ∉ pushedRegs.reverse by decide) hc₁
  have hgsp := hpopped.gs.trans (hkept.gs.trans he.gs)
  have hgsp' := hpopped.kernelGs.trans (hkept.kernelGs.trans he.kernelGs)
  refine ⟨k, (swapIf cs p).set .rsp ((swapIf cs p).regs .rsp + 16), ?_, ?_⟩
  · rw [isrStub, hentered]
    simp only [bind, hcall, hpops, Option.bind, swapgsConditional_eq hpframe]
  · rw [swapIf_eq]
    refine ⟨?_, fun q hq => ?_, ⟨?_, ?_⟩, ?_, he.gs⟩
    · have hplace : p.regs .rsp + 16 = p.regs .rsp + 8 + 8 := by grind
      rw [Cpu.set_self, hplace]
      exact hpframe.2.2
    · rw [Cpu.set_of_ne hq]
      exact hpopped.regs q (by cases q <;> first | decide | exact absurd rfl hq)
    · show (if cs &&& 3 = 0 then p.gs else p.kernelGs) = c.gs
      rw [hgsp, hgsp']
      split_ifs <;> rfl
    · show (if cs &&& 3 = 0 then p.kernelGs else p.gs) = c.kernelGs
      rw [hgsp, hgsp']
      split_ifs <;> rfl
    · rw [he.rdi]
      exact he.frame

variable {vector : ℕ} {error : Option UInt64} {x : Context}

/-- The words between the vector and the context when `isr_stub` begins: one, if the two sides agree. -/
def codeWords (vector : ℕ) (error : Option UInt64) : List UInt64 :=
  (if hasErrorCode vector then [] else [0]) ++ error.toList

theorem isr_pushed (vector : ℕ) (hd : Delivered error x c) :
    ∃ n c', isrPush vector c = some c' ∧ Pushed n c c' ∧
      Frame c'.mem (c'.regs .rsp) (UInt64.ofNat vector :: (codeWords vector error ++ x.words)) ∧
      ∀ a ∈ below (c'.regs .rsp) 16, c'.mem a ≠ none := by
  have hlen : (error.toList ++ x.words).length < 7 := by cases error <;> simp [Context.words]
  rcases hcode : hasErrorCode vector with _ | _
  · obtain ⟨c₁, hpush, hpushed, hframe, hmapped⟩ := push_room 0 hd.mapped hd.frame (by omega)
    obtain ⟨c', hpush', hpushed', hframe', hmapped'⟩ := push_room (UInt64.ofNat vector) hmapped hframe
      (by simp only [List.length_cons]; omega)
    refine ⟨2, c', ?_, hpushed.cons hpushed', by simpa [codeWords, hcode] using hframe', hmapped'⟩
    simp [isrPush, hcode, hpush, hpush']
  · obtain ⟨c', hpush, hpushed, hframe, hmapped⟩ := push_room (UInt64.ofNat vector)
      (fun a ha => hd.mapped a (below_subset_succ ha)) hd.frame (by omega)
    refine ⟨1, c', ?_, hpushed, by simpa [codeWords, hcode] using hframe, hmapped⟩
    simp [isrPush, hcode, hpush]

theorem codeWords_of_agree (h : error.isSome = hasErrorCode vector) :
    codeWords vector error = [error.getD 0] := by
  unfold codeWords
  rw [← h]
  cases error <;> rfl

/-- With one word for the code, the stub goes back as it came. -/
theorem isr_transparent {back : UInt64} (hk : ∀ k, isrEnter back vector c = some k → Keeps handler k)
    (hd : Delivered error x c) (hagree : error.isSome = hasErrorCode vector) :
    ∃ r, isr handler back vector c = some r ∧ Transparent vector error x c r := by
  obtain ⟨n, c', hpush, hpushed, hframe, hmapped⟩ := isr_pushed vector hd
  rw [isrEnter, hpush] at hk
  rw [codeWords_of_agree hagree] at hframe
  obtain ⟨entered, p, hstub, hp⟩ := isrStub_eq hk hframe (by simp) hmapped
  have hregs : pushedRegs.map c'.regs = pushedRegs.map c.regs :=
    List.map_congr_left fun q hq => hpushed.regs q fun h => absurd (h ▸ hq) (by decide)
  rw [isr, hpush]
  refine ⟨_, hstub.trans (iretq_words hp.frame), rfl, fun q hq => ?_, ?_, ?_, ?_⟩
  · exact (Cpu.set_of_ne hq).trans ((hp.regs q hq).trans (hpushed.regs q hq))
  · exact ⟨hp.gs.1.trans hpushed.gs, hp.gs.2.trans hpushed.kernelGs⟩
  · have hstate := hp.state
    rwa [List.map_reverse, hregs, ← List.map_reverse] at hstate
  · rw [hp.kernel, hpushed.gs, hpushed.kernelGs]

/-- With another number of words, it goes to the wrong one. -/
theorem isrStub_astray {back : UInt64} (hk : ∀ k, isrStubEnter back c = some k → Keeps handler k)
    (hframe : Frame c.mem (c.regs .rsp) [v, w, rip, cs])
    (hmapped : ∀ a ∈ below (c.regs .rsp) 16, c.mem a ≠ none) {r : Returned}
    (h : isrStub handler back c = some r) : r.context.rip = rip := by
  obtain ⟨entered, p, hstub, hp⟩ := isrStub_eq hk hframe (by simp) hmapped
  exact iretq_rip hp.frame.1 (hstub ▸ h)

/-- Interrupted code goes on as it was, and `arch_int_handler` sees its state, if the stub expects an error
code when the processor pushes one. It does not otherwise, unless `cs` or the error code is the same number
as `rip`. -/
theorem interrupt_transparent_iff {back : UInt64}
    (hk : ∀ k, isrEnter back vector c = some k → Keeps handler k) (hd : Delivered error x c) :
    (error.isSome = hasErrorCode vector →
      ∃ r, isr handler back vector c = some r ∧ Transparent vector error x c r) ∧
    (x.rip ≠ x.cs → (∀ e ∈ error, e ≠ x.rip) →
      (∃ r, isr handler back vector c = some r ∧ Transparent vector error x c r) →
      error.isSome = hasErrorCode vector) := by
  refine ⟨isr_transparent hk hd, fun hcode herr ⟨r, hr, ht⟩ => ?_⟩
  obtain ⟨n, c', hpush, hpushed, hframe, hmapped⟩ := isr_pushed vector hd
  rw [isrEnter, hpush] at hk
  rw [isr, hpush] at hr
  rcases hhas : hasErrorCode vector with _ | _ <;> rcases error with _ | e <;>
    simp only [codeWords, hhas] at hframe
  · rfl
  · -- `iretq` takes the error code for `rip`
    obtain ⟨h1, h2, h3, h4, -⟩ := hframe
    refine absurd ?_ (herr e rfl)
    rw [← isrStub_astray hk ⟨h1, h2, h3, h4, trivial⟩ hmapped hr, ht.context]
  · -- `rip` is dropped for the error code, and `iretq` takes `cs` for it
    obtain ⟨h1, h2, h3, h4, -⟩ := hframe
    refine absurd ?_ hcode
    rw [← isrStub_astray hk ⟨h1, h2, h3, h4, trivial⟩ hmapped hr, ht.context]
  · rfl

end

/-- User code at `0x100b` that was interrupted with the error code `0x1003`: every word of memory is its
address plus 3. -/
def sampleContext : Context := ⟨0x100b, 0x1013, 0x101b, 0x1023, 0x102b⟩

def sampleCpu : Cpu := ⟨fun _ => 0x1000, fun a => some (a + 3), 1, 2, false, false⟩

theorem sample_delivered : Delivered (some 0x1003) sampleContext sampleCpu :=
  ⟨⟨rfl, rfl, rfl, rfl, rfl, rfl, trivial⟩, fun _ _ => by simp [sampleCpu]⟩

/-- A page fault, with `arch_int_handler` as a bare return. -/
theorem interrupt_transparent_pageFault :
    ∃ r, isr (fun k => some (k.set .rsp (k.regs .rsp + 8))) 0 14 sampleCpu = some r ∧
      Transparent 14 (some 0x1003) sampleContext sampleCpu r :=
  (interrupt_transparent_iff (fun _ _ => ⟨_, rfl, Cpu.set_self, fun _ _ => rfl, rfl, rfl⟩)
    sample_delivered).1 rfl

/-! ## The dispatch -/

/-- What `arch_int_handler` calls, each from the state before the call to that behind it: the functions in
`handlers`, `vmm_pagefault_handler` and `x86_64_lapic_send_eoi`. -/
structure Calls where
  handlers : ℕ → Option (Cpu → Option Cpu)
  pagefault : Cpu → Option (Bool × Cpu)
  sendEoi : Cpu → Option Cpu

/-- The place of `int_no` in a `cpu_state_t`. -/
def intNoOffset : UInt64 := 120

section

variable (C : Calls)

/-- `arch_int_handler` up to the end of the interrupt. `arch_cpu_halt` has no result. -/
def dispatch (intNo : ℕ) (k : Cpu) : Option Cpu :=
  if intNo < 32 then
    if intNo = 14 then (C.pagefault k).bind fun r => if r.1 then some r.2 else none
    else none
  else (C.handlers intNo).elim (some k) fun h => h k

/-- `arch_int_handler`, with `cpu_state` in `rdi`. -/
def archIntHandler (k : Cpu) : Option Cpu := do
  let intNo ← k.mem (k.regs .rdi + intNoOffset)
  let c ← dispatch C intNo.toNat k
  let c ← C.sendEoi c
  return c.set .rsp (c.regs .rsp + 8)

/-- What is called for the vector goes on from `k` without a halt. -/
def Served (vector : ℕ) (k : Cpu) : Prop :=
  vector = 14 ∧ (∃ c, C.pagefault k = some (true, c)) ∨
    32 ≤ vector ∧ ∀ h, C.handlers vector = some h → h k ≠ none

end

section

variable {C : Calls} {vector : ℕ} {error : Option UInt64} {x : Context} {c : Cpu}

theorem dispatch_ne_none_iff {k : Cpu} : dispatch C vector k ≠ none ↔ Served C vector k := by
  unfold dispatch Served
  split_ifs with hlt hpf
  · rcases hr : C.pagefault k with _ | ⟨_ | _, c⟩ <;> simp [hpf]
  · simp [hpf, Nat.not_le_of_lt hlt]
  · have hpf : vector ≠ 14 := by omega
    rcases hh : C.handlers vector with _ | h <;> simp [Nat.le_of_not_lt hlt, hpf]

/-- `arch_int_handler` finds the vector that the stub has pushed. -/
theorem isrEnter_intNo (back : UInt64) (hd : Delivered error x c)
    (hagree : error.isSome = hasErrorCode vector) :
    ∃ k, isrEnter back vector c = some k ∧
      k.mem (k.regs .rdi + intNoOffset) = some (UInt64.ofNat vector) := by
  obtain ⟨n, c', hpush, -, hframe, hmapped⟩ := isr_pushed vector hd
  rw [codeWords_of_agree hagree] at hframe
  obtain ⟨k, hk, he⟩ := isrStubEnter_eq back hframe (by simp) hmapped
  refine ⟨k, by rw [isrEnter, hpush, Option.bind_some, hk], ?_⟩
  rw [he.rdi]
  exact (frame_append.mp he.frame).2.1

theorem archIntHandler_eq {k : Cpu} (hv : vector < 256)
    (hk : k.mem (k.regs .rdi + intNoOffset) = some (UInt64.ofNat vector)) :
    archIntHandler C k = (dispatch C vector k).bind fun c =>
      (C.sendEoi c).bind fun c => some (c.set .rsp (c.regs .rsp + 8)) := by
  have hnat : (UInt64.ofNat vector).toNat = vector :=
    UInt64.toNat_ofNat_of_lt' (Nat.lt_trans hv (by decide))
  rw [archIntHandler, hk, Option.bind_eq_bind, Option.bind_some, hnat]
  rfl

/-- Where the stub and the processor agree about the error code, the interrupted code goes on exactly after
a page fault that `vmm_pagefault_handler` handles, and after another vector from 32 on, if the handler that
is registered for it returns. -/
theorem dispatched_iff {back : UInt64} (hd : Delivered error x c)
    (hagree : error.isSome = hasErrorCode vector) (hv : vector < 256)
    (hkept : ∀ k c₁, isrEnter back vector c = some k → dispatch C vector k = some c₁ →
      ∃ c₂, C.sendEoi c₁ = some c₂ ∧ c₂.regs .rsp = k.regs .rsp ∧ Kept k c₂) :
    (∃ r, isr (archIntHandler C) back vector c = some r ∧ Transparent vector error x c r) ↔
      ∃ k, isrEnter back vector c = some k ∧ Served C vector k := by
  obtain ⟨k, hk, hint⟩ := isrEnter_intNo back hd hagree
  have hhandler := archIntHandler_eq (C := C) hv hint
  constructor
  · rintro ⟨r, hr, -⟩
    refine ⟨k, hk, dispatch_ne_none_iff.mp fun hnone => ?_⟩
    -- a halt in the handler ends the stub
    obtain ⟨c', hpush, hr⟩ := Option.bind_eq_some_iff.mp hr
    rw [isrEnter, hpush, Option.bind_some] at hk
    rw [isrStub, hk, Option.bind_eq_bind, Option.bind_some, hhandler, hnone] at hr
    cases hr
  · rintro ⟨k', hk', hserved⟩
    cases hk.symm.trans hk'
    obtain ⟨c₁, hc₁⟩ := Option.ne_none_iff_exists'.mp (dispatch_ne_none_iff.mpr hserved)
    obtain ⟨c₂, hc₂, hsp, hkept⟩ := hkept k c₁ hk hc₁
    refine isr_transparent (fun k' hk' => ?_) hd hagree
    cases hk.symm.trans hk'
    rw [hc₁, Option.bind_some, hc₂, Option.bind_some] at hhandler
    exact ⟨_, hhandler, by rw [Cpu.set_self, hsp], hkept.mem, hkept.gs, hkept.kernelGs⟩

end

/-- A page fault that is handled, and a general protection fault. -/
theorem dispatched_iff_faults :
    let C : Calls := ⟨fun _ => none, fun k => some (true, k), some⟩
    (∃ r, isr (archIntHandler C) 0 14 sampleCpu = some r ∧
        Transparent 14 (some 0x1003) sampleContext sampleCpu r) ∧
      ¬ ∃ r, isr (archIntHandler C) 0 13 sampleCpu = some r ∧
        Transparent 13 (some 0x1003) sampleContext sampleCpu r := by
  intro C
  have hkept : ∀ k c₁, dispatch C 14 k = some c₁ →
      ∃ c₂, C.sendEoi c₁ = some c₂ ∧ c₂.regs .rsp = k.regs .rsp ∧ Kept k c₂ := by
    rintro k _ ⟨⟩
    exact ⟨k, rfl, rfl, fun _ _ => rfl, rfl, rfl⟩
  obtain ⟨k, hk⟩ : ∃ k, isrEnter 0 14 sampleCpu = some k :=
    (isrEnter_intNo 0 sample_delivered rfl).imp fun _ h => h.1
  refine ⟨(dispatched_iff sample_delivered rfl (by decide) fun k c₁ _ h => hkept k c₁ h).mpr
    ⟨k, hk, .inl ⟨rfl, k, rfl⟩⟩, fun h => ?_⟩
  obtain ⟨k, -, hserved⟩ := (dispatched_iff (C := C) sample_delivered rfl (by decide)
    fun k c₁ _ h => by cases h).mp h
  exact hserved.elim (fun h => absurd h.1 (by decide)) fun h => absurd h.1 (by decide)

end LykOS.Interrupt
