import LykOS.Lib.Bits
import LykOS.Lib.X86
import LykOS.Mm.Pmm.Model

/-!
# The creation of threads

`arch_thread_context_init` of `arch/x86_64/thread.c` puts the first frame of a thread on a stack of one
page, and allocates the area of the floating-point unit. What reads the frame is
`x86_64_sched_context_switch` of `sched.asm` and, for a user thread, `x86_64_thread_userspace_init` of
`userspace.S`.

The frame is complete for both kinds of threads (`frame_complete`). But the one of a user thread has two
words more than the place that is left for it, so it ends 16 bytes behind the page; and the order of the
area is divided by the size of a page, so it is 0 whatever the size (`thread_init_right_iff`).
-/

namespace LykOS.Thread

open X86 Pmm Function List

/-! ## The source -/

/-- `arch_thread_context_t`. -/
structure ArchThreadContext where
  self : UInt64
  rsp : UInt64
  kernelStack : UInt64
  syscallStack : UInt64
  fpuArea : UInt64
  fs : UInt64
  gs : UInt64

/-- The registers that a context switch saves, in the order of the pushes. -/
def savedRegs : List Reg :=
  [.rax, .rbx, .rcx, .rdx, .rbp, .rsi, .rdi, .r8, .r9, .r10, .r11, .r12, .r13, .r14, .r15]

/-- `arch_thread_init_stack_kernel_t`, in words from the lowest address on. -/
def initStackKernel (entry : UInt64) : List UInt64 := List.replicate 15 0 ++ [entry]

/-- `arch_thread_init_stack_user_t`. -/
def initStackUser (userspaceInit entry userStack : UInt64) : List UInt64 :=
  List.replicate 15 0 ++ [userspaceInit, entry, userStack]

/-- `sizeof(arch_thread_init_stack_kernel_t)`. -/
def sizeofInitStackKernel : UInt64 := 128

/-- `g_x86_64_fpu_area_size` after `x86_64_fpu_init`, for two features of the processor and the register
`ecx` of the leaf `0xD`. It panics without `FXSR`. -/
def x8664FpuInit (fxsr xsave : Bool) (ecx : UInt32) : Option UInt32 :=
  if fxsr then some (if xsave then ecx else 512) else none

/-- The arguments of `arch_thread_context_init`, and what its calls of `pmm_alloc` and
`x86_64_abi_stack_setup` return. -/
structure Request where
  context : UInt64
  user : Bool
  entry : UInt64
  hhdm : UInt64
  stackPage : UInt64
  fpuBlock : UInt64
  userspaceInit : UInt64
  userStack : UInt64
  fpuAreaSize : UInt32

/-- The page of the stack, where the kernel sees it. -/
def Request.page (q : Request) : UInt64 := q.stackPage + q.hhdm

/-- `context->kernel_stack`. -/
def Request.kernelStack (q : Request) : UInt64 := q.page + UInt64.ofNat archPageGran

/-- `context->rsp`. -/
def Request.rsp (q : Request) : UInt64 :=
  if q.user then (q.kernelStack - sizeofInitStackKernel) &&& ~~~0xF
  else q.kernelStack - sizeofInitStackKernel

/-- The stores through `context->rsp`, with their addresses: the `memset` and the entry of a kernel
thread, or the whole structure of a user thread. -/
def Request.stores (q : Request) : List (UInt64 × List UInt64) :=
  if q.user then [(q.rsp, initStackUser q.userspaceInit q.entry q.userStack)]
  else [(q.rsp, List.replicate 16 0), (q.rsp + 120, [q.entry])]

/-- `order`, an `u8`. -/
def Request.order (q : Request) : ℕ :=
  pmmPagecountToOrder (ceilTo q.fpuAreaSize.toNat archPageGran) / archPageGran % 2 ^ 8

/-- `arch_thread_context_init`: the context, and memory behind the stores. -/
def archThreadContextInit (q : Request) (old : ArchThreadContext) (mem : UInt64 → Option UInt64) :
    ArchThreadContext × (UInt64 → Option UInt64) :=
  ({ old with
      self := q.context
      fs := 0
      gs := 0
      kernelStack := q.kernelStack
      rsp := q.rsp
      fpuArea := q.fpuBlock + q.hhdm },
    q.stores.foldl (fun mem s => store mem s.1 s.2) mem)

def threadRspOffset : UInt64 := 8

/-- `x86_64_sched_context_switch`, with the address of `sched_drop`. -/
def schedContextSwitch (schedDrop : UInt64) : List (Instr Empty) :=
  [ .push .rax,
    .push .rbx,
    .push .rcx,
    .push .rdx,
    .push .rbp,
    .push .rsi,
    .push .rdi,
    .push .r8,
    .push .r9,
    .push .r10,
    .push .r11,
    .push .r12,
    .push .r13,
    .push .r14,
    .push .r15,
    .store (.base .rdi threadRspOffset) .rsp,
    .load .rsp (.base .rsi threadRspOffset),
    .push .rsi,
    .call (.abs schedDrop),
    .pop .rsi,
    .pop .r15,
    .pop .r14,
    .pop .r13,
    .pop .r12,
    .pop .r11,
    .pop .r10,
    .pop .r9,
    .pop .r8,
    .pop .rdi,
    .pop .rsi,
    .pop .rbp,
    .pop .rdx,
    .pop .rcx,
    .pop .rbx,
    .pop .rax,
    .sti,
    .ret ]

/-- The flags of a new user thread: interrupts, and the bit that is always set. -/
def userFlags : UInt64 := ((1 : UInt64) <<< 9) ||| ((1 : UInt64) <<< 1)

/-- The registers that `x86_64_thread_userspace_init` clears. -/
def clearedRegs : List Reg :=
  [.rbp, .rax, .rbx, .rdx, .rsi, .rdi, .r8, .r9, .r10, .r12, .r13, .r14, .r15]

/-- `x86_64_thread_userspace_init`. -/
def threadUserspaceInit : List (Instr Empty) :=
  [ .pop .rcx,
    .cli,
    .swapgs,
    .pop .rax,
    .mov .rsp .rax,
    .zero .rbp,
    .zero .rax,
    .zero .rbx,
    .zero .rdx,
    .zero .rsi,
    .zero .rdi,
    .zero .r8,
    .zero .r9,
    .zero .r10,
    .zero .r12,
    .zero .r13,
    .zero .r14,
    .zero .r15,
    .movi .r11 userFlags,
    .sysret ]

def start (code : List (Instr Empty)) (callee : UInt64 → Cpu → Option Cpu) (back : UInt64) (c : Cpu) :
    Option Outcome :=
  run callee back code none [] c

/-! ## What is expected -/

/-- The part of `x86_64_sched_context_switch` that goes from one stack to the other. -/
def switchStacks : List (Instr Empty) :=
  [.store (.base .rdi threadRspOffset) .rsp, .load .rsp (.base .rsi threadRspOffset), .push .rsi]

/-- The switch that begins in `c` enters `sched_drop` in `k`. -/
def EntersDrop (back : UInt64) (c k : Cpu) : Prop :=
  ∃ s e, exec (savedRegs.map .push : List (Instr Empty)) c = some s ∧ exec switchStacks s = some e ∧
    e.push back = some k

/-- The stack of the new thread is about to be switched to: `rsi` is its context, the stack of the old
thread has place for the registers, apart from the memory of the new thread, whose frame is as in `mem`, and
`sched_drop`, where it is entered, leaves its caller's part of the stack alone. -/
structure Ready (callee : UInt64 → Cpu → Option Cpu) (schedDrop back : UInt64) (context : ArchThreadContext)
    (mem : UInt64 → Option UInt64) (n : ℕ) (c : Cpu) : Prop where
  next : c.regs .rsi = context.self
  rsp : c.mem (context.self + threadRspOffset) = some context.rsp
  frame : ∀ a ∈ above context.rsp n, c.mem a = mem a
  mapped : ∀ a ∈ (c.regs .rdi + threadRspOffset) :: (below (c.regs .rsp) 15 ++ below context.rsp 2),
    c.mem a ≠ none
  apart : ∀ a ∈ (context.self + threadRspOffset) :: above context.rsp n,
    a ∉ (c.regs .rdi + threadRspOffset) :: below (c.regs .rsp) 15
  drop : ∀ k, EntersDrop back c k → ∃ d, callee schedDrop k = some d ∧ d.regs .rsp = k.regs .rsp + 8 ∧
    ∀ a ∈ above (k.regs .rsp + 8) (n + 1), d.mem a = k.mem a

/-- A kernel thread begins at its entry, with an empty stack and all registers 0. -/
def KernelStarts (q : Request) (o : Outcome) : Prop :=
  o.exit = .ret q.entry ∧ o.cpu.regs .rsp = q.kernelStack ∧ ∀ r ∈ savedRegs, o.cpu.regs r = 0

/-- A user thread begins in `x86_64_thread_userspace_init`, and from there with `sysret` at its entry and on
its stack. -/
def UserStarts (q : Request) (callee : UInt64 → Cpu → Option Cpu) (back : UInt64) (o : Outcome) : Prop :=
  o.exit = .ret q.userspaceInit ∧
    ∃ c, start threadUserspaceInit callee back o.cpu = some ⟨.sysret, c, []⟩ ∧
      c.regs .rcx = q.entry ∧ c.regs .rsp = q.userStack ∧ c.regs .r11 = userFlags ∧
      ∀ r ∈ clearedRegs, c.regs r = 0

/-- The number of words in the frame of a thread. -/
def Request.words (q : Request) : ℕ := if q.user then 18 else 16

/-- The frame that a context switch reads is complete: the thread begins where it should. -/
def FrameComplete (q : Request) (old : ArchThreadContext) (mem : UInt64 → Option UInt64) : Prop :=
  ∀ callee schedDrop back c,
    Ready callee schedDrop back (archThreadContextInit q old mem).1 (archThreadContextInit q old mem).2
      q.words c →
    ∃ o, start (schedContextSwitch schedDrop) callee back c = some o ∧
      if q.user then UserStarts q callee back o else KernelStarts q o

/-- Thread creation stays in its own memory. -/
structure InitRight (q : Request) (old : ArchThreadContext) (mem : UInt64 → Option UInt64) : Prop where
  inside : ∀ s ∈ q.stores, ∀ a ∈ above s.1 s.2.length,
    q.page.toNat ≤ a.toNat ∧ a.toNat + 8 ≤ q.page.toNat + archPageGran
  frame : FrameComplete q old mem
  fpu : q.fpuAreaSize.toNat ≤ pmmOrderToPagecount q.order * archPageGran

/-! ## The context switch -/

section

variable {callee : UInt64 → Cpu → Option Cpu} {schedDrop back target : UInt64} {context : ArchThreadContext}
  {mem : UInt64 → Option UInt64} {n : ℕ} {c : Cpu} {ws : List UInt64}

theorem schedContextSwitch_eq (schedDrop : UInt64) : schedContextSwitch schedDrop =
    savedRegs.map .push ++ (switchStacks ++ .call (.abs schedDrop) ::
        ([Reg.rsi].map .pop ++ (savedRegs.reverse.map .pop ++ ([.sti] ++ [.ret])))) := rfl

theorem Ready.switch (h : Ready callee schedDrop back context mem n c) {words : List UInt64}
    (hn : words.length = n) (hlen : n < 2 ^ 32) (hframe : Frame mem context.rsp words) :
    ∃ s, exec (savedRegs.map .push : List (Instr Empty)) c = some s ∧
      ∃ e, exec switchStacks s = some e ∧ Frame e.mem (e.regs .rsp) (context.self :: words) ∧
        e.regs .rsp = context.rsp - 8 ∧ e.mem (e.regs .rsp - 8) ≠ none := by
  have hstack : ∀ b ∈ below (c.regs .rsp) savedRegs.length, c.mem b ≠ none := fun b hb =>
    h.mapped b (mem_cons_of_mem _ (mem_append_left _ hb))
  obtain ⟨s, hexec, hpushed, -⟩ := exec_pushes Empty (show Reg.rsp ∉ savedRegs by decide) hstack
    (show Frame c.mem (c.regs .rsp) [] from trivial) (by decide)
  refine ⟨s, hexec, ?_⟩
  have hrdi : s.regs .rdi = c.regs .rdi := hpushed.regs .rdi (by decide)
  have hrsi : s.regs .rsi = context.self := (hpushed.regs .rsi (by decide)).trans h.next
  set old : UInt64 := c.regs .rdi + threadRspOffset with hold
  have hkept : ∀ a ∈ (context.self + threadRspOffset) :: above context.rsp n,
      update s.mem old (some (s.regs .rsp)) a = c.mem a := fun a ha => by
    obtain ⟨hne, hbelow⟩ := not_or.mp (mem_cons.not.mp (h.apart a ha))
    rw [update_of_ne hne, hpushed.mem a hbelow]
  have hmapped : ∀ a, c.mem a ≠ none → update s.mem old (some (s.regs .rsp)) a ≠ none :=
    fun a ha => by
      by_cases heq : a = old
      · rw [heq, update_self]
        exact Option.some_ne_none _
      · rw [update_of_ne heq]
        exact hpushed.mapped a ha
  let u : Cpu := { s with mem := update s.mem old (some (s.regs .rsp)) }
  let t : Cpu := u.set .rsp context.rsp
  have htsp : t.regs .rsp = context.rsp := Cpu.set_self
  have htrsi : t.regs .rsi = context.self := (Cpu.set_of_ne (by decide)).trans hrsi
  have hfirst : t.mem (t.regs .rsp - 8) ≠ none := by
    rw [htsp]
    exact hmapped _ (h.mapped _ (mem_cons_of_mem _ (mem_append_right _ mem_cons_self)))
  have htframe : Frame t.mem (t.regs .rsp) words := by
    rw [htsp]
    refine hframe.congr fun b hb => ?_
    rw [hn] at hb
    exact (hkept b (mem_cons_of_mem _ hb)).trans (h.frame b hb)
  obtain ⟨e, hpush, hepushed, heframe⟩ := push_spec context.self hfirst htframe (by omega)
  have hesp : e.regs .rsp = context.rsp - 8 := by rw [hepushed.sp_eq, htsp]
  refine ⟨e, ?_, heframe, hesp, ?_⟩
  · have hstore : s.write (s.regs .rdi + threadRspOffset) (s.regs .rsp) = some u := by
      rw [hrdi, ← hold]
      exact Cpu.write_of_mapped (hpushed.mapped _ (h.mapped _ mem_cons_self))
    have hload : (u.mem (u.regs .rsi + threadRspOffset)).map (fun v => u.set .rsp v) = some t := by
      have hu : u.mem (u.regs .rsi + threadRspOffset) = some context.rsp := by
        show update s.mem old _ (s.regs .rsi + threadRspOffset) = _
        rw [hrsi, hkept _ mem_cons_self, h.rsp]
      rw [hu, Option.map_some]
    rw [switchStacks, exec_cons, Instr.exec, Addr.eval, hstore, Option.bind_some, exec_cons, Instr.exec,
      Addr.eval, hload, Option.bind_some, exec_cons, Instr.exec, htrsi, hpush]
    rfl
  · rw [hesp]
    refine hepushed.mapped _ (hmapped _ (h.mapped _ (mem_cons_of_mem _ (mem_append_right _ ?_))))
    exact mem_cons_of_mem _ mem_cons_self

theorem Ready.run (h : Ready callee schedDrop back context mem (16 + ws.length) c)
    (hlen : ws.length < 2 ^ 31)
    (hframe : Frame mem context.rsp (List.replicate 15 0 ++ target :: ws)) :
    ∃ o, start (schedContextSwitch schedDrop) callee back c = some o ∧ o.exit = .ret target ∧
      o.cpu.regs .rsp = context.rsp + sizeofInitStackKernel ∧ (∀ r ∈ savedRegs, o.cpu.regs r = 0) ∧
      Frame o.cpu.mem (o.cpu.regs .rsp) ws := by
  have hwords : (List.replicate 15 (0 : UInt64) ++ target :: ws).length = 16 + ws.length := by
    rw [length_append, length_replicate, length_cons]
    omega
  obtain ⟨s, hpushes, e, hexec, heframe, hesp, hemapped⟩ := h.switch hwords (by omega) hframe
  obtain ⟨k, hpush, hkpushed, hkframe⟩ := push_spec back hemapped heframe (by rw [length_cons]; omega)
  obtain ⟨d, hcall, hdsp, hdkept⟩ := h.drop k ⟨s, e, hpushes, hexec, hpush⟩
  have hdsp' : d.regs .rsp = context.rsp - 8 := by
    rw [hdsp, hkpushed.sp_eq, UInt64.sub_add_cancel, hesp]
  have hdframe : Frame d.mem (d.regs .rsp) ([Reg.rsi].map (fun _ => context.self) ++
      (List.replicate 15 0 ++ target :: ws)) := by
    rw [hdsp]
    refine hkframe.2.congr fun b hb => hdkept b ?_
    rwa [length_cons, hwords] at hb
  obtain ⟨p, hpop, hppopped, hpframe⟩ := exec_pops Empty (show Reg.rsp ∉ [Reg.rsi] by decide) hdframe
  obtain ⟨p', hpops, hpopped, hp'frame⟩ := exec_pops Empty (show Reg.rsp ∉ savedRegs.reverse by decide)
    (show Frame p.mem (p.regs .rsp) (savedRegs.reverse.map (fun _ => 0) ++ target :: ws) from hpframe)
  refine ⟨⟨.ret target, p'.set .rsp (p'.regs .rsp + 8), [(schedDrop, k)]⟩, ?_, rfl, ?_, fun r hr => ?_, ?_⟩
  · have hsti : exec ([.sti] : List (Instr Empty)) p' = some p' := rfl
    rw [start, schedContextSwitch_eq, run_block hpushes, run_block hexec, run_call hpush hcall,
      run_block hpop, run_block hpops, run_block hsti, run_ret hp'frame.1]
    rfl
  · show (p'.set .rsp _).regs .rsp = _
    rw [Cpu.set_self, hpopped.rsp, hppopped.rsp, hdsp', sizeofInitStackKernel]
    simp only [savedRegs, length_reverse, length_cons, length_nil]
    grind
  · have hne : r ≠ .rsp := fun heq => absurd (heq ▸ hr) (by decide)
    show (p'.set .rsp _).regs r = 0
    rw [Cpu.set_of_ne hne, hpopped.regs r (mem_reverse.mpr hr)]
  · show Frame p'.mem ((p'.set .rsp _).regs .rsp) ws
    rw [Cpu.set_self]
    exact hp'frame.2

theorem userspaceInit_run {entry userStack : UInt64} (callee : UInt64 → Cpu → Option Cpu) (back : UInt64)
    (hframe : Frame c.mem (c.regs .rsp) [entry, userStack]) :
    ∃ c', start threadUserspaceInit callee back c = some ⟨.sysret, c', []⟩ ∧ c'.regs .rcx = entry ∧
      c'.regs .rsp = userStack ∧ c'.regs .r11 = userFlags ∧ ∀ r ∈ clearedRegs, c'.regs r = 0 := by
  obtain ⟨hentry, hstack, -⟩ := hframe
  set block : List (Instr Empty) := [.pop .rcx, .cli, .swapgs, .pop .rax, .mov .rsp .rax] with hblock
  obtain ⟨b, hexec, hrcx, hrsp⟩ : ∃ b, exec block c = some b ∧ b.regs .rcx = entry ∧
      b.regs .rsp = userStack := by
    set c₁ := ((c.set .rsp (c.regs .rsp + 8)).set .rcx entry).swapgs with hc₁
    have hsp₁ : c₁.regs .rsp = c.regs .rsp + 8 := by
      rw [hc₁, Cpu.swapgs_regs, Cpu.set_of_ne (by decide), Cpu.set_self]
    have hmem₁ : c₁.mem (c₁.regs .rsp) = some userStack := by rw [hsp₁]; exact hstack
    have hpop : exec block c = (Instr.exec c₁ (.pop .rax : Instr Empty)).bind
        (exec [(.mov .rsp .rax : Instr Empty)]) := by
      rw [hblock, exec_cons, Instr.exec, hentry]
      rfl
    rw [hpop, Instr.exec, hmem₁]
    refine ⟨_, rfl, ?_, Cpu.set_self.trans Cpu.set_self⟩
    rw [Cpu.set_of_ne (by decide), Cpu.set_of_ne (by decide), Cpu.set_of_ne (by decide), hc₁,
      Cpu.swapgs_regs, Cpu.set_self]
  obtain ⟨z, hzeros, hzero, hothers⟩ := exec_zeros Empty b clearedRegs
  refine ⟨z.set .r11 userFlags, ?_, ?_, ?_, Cpu.set_self, fun r hr => ?_⟩
  · have heq : threadUserspaceInit =
        block ++ (clearedRegs.map .zero ++ ([.movi .r11 userFlags] ++ [.sysret])) := rfl
    have hlast : exec ([.movi .r11 userFlags] : List (Instr Empty)) z = some (z.set .r11 userFlags) := rfl
    rw [start, heq, run_block hexec, run_block hzeros, run_block hlast, run]
  · rw [Cpu.set_of_ne (by decide), hothers _ (by decide), hrcx]
  · rw [Cpu.set_of_ne (by decide), hothers _ (by decide), hrsp]
  · have hne : r ≠ .r11 := fun heq => absurd (heq ▸ hr) (by decide)
    rw [Cpu.set_of_ne hne, hzero r hr]

end

/-! ## The frame and the memory around it -/

section

variable (q : Request) (old : ArchThreadContext) (mem : UInt64 → Option UInt64)

theorem frame_kernel (hk : q.user = false) :
    Frame (archThreadContextInit q old mem).2 q.rsp (initStackKernel q.entry) := by
  have hmem : (archThreadContextInit q old mem).2 =
      store (store mem q.rsp (List.replicate 16 0)) (q.rsp + 120) [q.entry] := by
    rw [archThreadContextInit, Request.stores, hk]
    rfl
  have hzeros : Frame (store mem q.rsp (List.replicate 16 0)) q.rsp (List.replicate 15 0 ++ [0]) :=
    frame_store (by decide)
  have hlast : q.rsp + 120 = q.rsp + 8 * UInt64.ofNat 15 := rfl
  rw [hmem, initStackKernel, frame_append]
  constructor
  · refine (frame_append.mp hzeros).1.congr fun b hb => store_of_notMem fun hbnew => ?_
    rw [length_replicate] at hb
    rw [mem_singleton.mp hbnew, hlast] at hb
    exact add_notMem_above le_rfl (by decide) hb
  · exact ⟨update_self .., trivial⟩

theorem frame_user (hu : q.user = true) :
    Frame (archThreadContextInit q old mem).2 q.rsp
      (initStackUser q.userspaceInit q.entry q.userStack) := by
  have hlen : (initStackUser q.userspaceInit q.entry q.userStack).length < 2 ^ 60 := by
    simp [initStackUser]
  rw [archThreadContextInit, Request.stores, hu]
  exact frame_store hlen

theorem frame_complete : FrameComplete q old mem := by
  intro callee schedDrop back c h
  cases hu : q.user with
  | false =>
    rw [Request.words, hu] at h
    obtain ⟨o, hrun, hexit, hsp, hregs, -⟩ := h.run
      (show ([] : List UInt64).length < 2 ^ 31 by decide) (frame_kernel q old mem hu)
    refine ⟨o, hrun, hexit, ?_, hregs⟩
    have hrsp : q.rsp = q.kernelStack - sizeofInitStackKernel := by
      rw [Request.rsp, hu]
      rfl
    rw [hsp]
    show q.rsp + _ = _
    rw [hrsp, UInt64.sub_add_cancel]
  | true =>
    rw [Request.words, hu] at h
    obtain ⟨o, hrun, hexit, -, -, hframe⟩ := h.run
      (show [q.entry, q.userStack].length < 2 ^ 31 from Nat.succ_lt_succ (Nat.succ_lt_succ (by decide)))
      (frame_user q old mem hu)
    exact ⟨o, hrun, hexit, userspaceInit_run callee back hframe⟩

end

section

variable {q : Request}

theorem toNat_word {a : UInt64} {i : ℕ} (h : a.toNat + 8 * i < 2 ^ 64) :
    (a + 8 * UInt64.ofNat i).toNat = a.toNat + 8 * i := by
  have hi : 8 * i < 2 ^ 64 := Nat.lt_of_le_of_lt (Nat.le_add_left ..) h
  rw [UInt64.toNat_add, UInt64.toNat_mul, UInt64.toNat_ofNat', Nat.mod_eq_of_lt (show i < 2 ^ 64 by omega)]
  show (a.toNat + 8 * i % 2 ^ 64) % 2 ^ 64 = _
  rw [Nat.mod_eq_of_lt hi, Nat.mod_eq_of_lt h]

theorem toNat_kernelStack_sub (hpage : q.page.toNat + archPageGran ≤ 2 ^ 64) :
    (q.kernelStack - sizeofInitStackKernel).toNat = q.page.toNat + 3968 := by
  have heq : q.kernelStack - sizeofInitStackKernel = q.page + 8 * UInt64.ofNat 496 := by
    have hconst : (8 * UInt64.ofNat 496 : UInt64) =
        UInt64.ofNat archPageGran - sizeofInitStackKernel := by decide
    rw [hconst, Request.kernelStack]
    grind
  unfold archPageGran at hpage
  rw [heq, toNat_word (by omega)]

theorem toNat_and_mask (x : UInt64) : (x &&& ~~~0xF).toNat = x.toNat / 16 * 16 := by
  have hmask : (~~~0xF : UInt64).toNat = (2 ^ 60 - 1) * 2 ^ 4 := rfl
  have hx := x.toNat_lt
  rw [UInt64.toNat_and, hmask, Bits.and_field]
  omega

theorem inside_iff (hpage : q.page.toNat + archPageGran ≤ 2 ^ 64) :
    (∀ s ∈ q.stores, ∀ a ∈ above s.1 s.2.length,
      q.page.toNat ≤ a.toNat ∧ a.toNat + 8 ≤ q.page.toNat + archPageGran) ↔ q.user = false := by
  have hsub := toNat_kernelStack_sub hpage
  unfold archPageGran at hpage ⊢
  cases hu : q.user with
  | false =>
    refine iff_of_true (fun s hs a ha => ?_) rfl
    have hrsp : q.rsp.toNat = q.page.toNat + 3968 := by
      rw [Request.rsp, hu]
      exact hsub
    -- both stores are of words among the sixteen from `rsp` on
    obtain ⟨i, hi, rfl⟩ : ∃ i < 16, a = q.rsp + 8 * UInt64.ofNat i := by
      rw [Request.stores, hu] at hs
      rcases mem_cons.mp hs with rfl | hs
      · exact mem_above.mp ha
      · obtain rfl := mem_singleton.mp hs
        exact ⟨15, by decide, mem_singleton.mp ha⟩
    rw [toNat_word (by omega)]
    omega
  | true =>
    refine iff_of_false (fun h => ?_) Bool.false_ne_true.symm
    have hrsp : q.rsp.toNat = (q.page.toNat + 3968) / 16 * 16 := by
      rw [Request.rsp, hu, if_pos rfl, toNat_and_mask, hsub]
    have hlast := h (q.rsp, initStackUser q.userspaceInit q.entry q.userStack)
      (by rw [Request.stores, hu]; exact mem_cons_self) (q.rsp + 8 * UInt64.ofNat 17)
      (mem_above.mpr ⟨17, by simp [initStackUser], rfl⟩)
    rw [UInt64.toNat_add, hrsp] at hlast
    change _ ≤ ((q.page.toNat + 3968) / 16 * 16 + 136) % 2 ^ 64 ∧
      ((q.page.toNat + 3968) / 16 * 16 + 136) % 2 ^ 64 + 8 ≤ _ at hlast
    omega

end

theorem pmmPagecountToOrder_le (pages : ℕ) : pmmPagecountToOrder pages ≤ 64 := by
  unfold pmmPagecountToOrder
  split_ifs
  · exact Nat.zero_le _
  · by_cases hzero : u64 (pages + (2 ^ 64 - 1)) = 0
    · rw [hzero]
      decide
    · exact (Nat.log2_lt hzero).mpr (u64_lt _)

theorem order_eq (q : Request) : q.order = 0 := by
  have hle := pmmPagecountToOrder_le (ceilTo q.fpuAreaSize.toNat archPageGran)
  rw [Request.order, Nat.div_eq_of_lt (Nat.lt_of_le_of_lt hle (by decide))]
  rfl

/-- For every kernel or user thread, every entry and every size of the area, thread creation stays in its
own memory exactly if the thread is a kernel thread and the size that the processor reports, if it has
`XSAVE`, is at most a page. -/
theorem thread_init_right_iff {q : Request} {fxsr xsave : Bool} {ecx : UInt32} (old : ArchThreadContext)
    (mem : UInt64 → Option UInt64) (hpage : q.page.toNat + archPageGran ≤ 2 ^ 64)
    (hsize : x8664FpuInit fxsr xsave ecx = some q.fpuAreaSize) :
    InitRight q old mem ↔ q.user = false ∧ (xsave = true → ecx.toNat ≤ archPageGran) := by
  have hfpu : q.fpuAreaSize.toNat ≤ pmmOrderToPagecount q.order * archPageGran ↔
      (xsave = true → ecx.toNat ≤ archPageGran) := by
    have hone : pmmOrderToPagecount 0 * archPageGran = archPageGran := rfl
    rw [order_eq, hone]
    unfold x8664FpuInit at hsize
    cases fxsr with
    | false => cases hsize
    | true =>
      rw [← Option.some.inj hsize]
      cases xsave with
      | false => exact iff_of_true (show 512 ≤ 4096 by decide) fun h => absurd h Bool.false_ne_true
      | true => exact ⟨fun h _ => h, fun h => h rfl⟩
  constructor
  · intro h
    exact ⟨(inside_iff hpage).mp h.inside, hfpu.mp h.fpu⟩
  · rintro ⟨hkernel, hsmall⟩
    exact ⟨(inside_iff hpage).mpr hkernel, frame_complete q old mem, hfpu.mpr hsmall⟩

/-- A thread with a stack in the page `0x5000`, and an area of 512 bytes. -/
def sampleRequest (user : Bool) : Request where
  context := 0x9000
  user := user
  entry := 0x401000
  hhdm := 0xFFFF800000000000
  stackPage := 0x5000
  fpuBlock := 0x6000
  userspaceInit := 0xFFFFFFFF80001000
  userStack := 0x7FFFFFFFE000
  fpuAreaSize := 512

def sampleContext : ArchThreadContext := ⟨0, 0, 0, 0, 0, 0, 0⟩

theorem thread_init_right_iff_sample :
    InitRight (sampleRequest false) sampleContext (fun _ => none) := by
  have hsize : x8664FpuInit true false 0 = some (sampleRequest false).fpuAreaSize := rfl
  exact (thread_init_right_iff _ _ (by decide) hsize).mpr ⟨rfl, fun h => absurd h Bool.false_ne_true⟩

/-- The entry of a user thread is stored in the first word behind the page of its stack. -/
theorem user_frame_behind_page :
    (sampleRequest true).rsp + 128 = (sampleRequest true).page + 0x1000 ∧
      (archThreadContextInit (sampleRequest true) sampleContext fun _ => none).2
        ((sampleRequest true).page + 0x1000) = some 0x401000 ∧
      ¬ InitRight (sampleRequest true) sampleContext fun _ => none := by
  have hrsp : (sampleRequest true).rsp + 128 = (sampleRequest true).page + 0x1000 := by decide
  refine ⟨hrsp, ?_, fun h => ?_⟩
  · have hframe := (frame_append.mp (frame_user (sampleRequest true) sampleContext (fun _ => none) rfl)).2
    rw [← hrsp]
    exact hframe.2.1
  · exact absurd ((inside_iff (by decide)).mp h.inside) Bool.noConfusion

end LykOS.Thread
