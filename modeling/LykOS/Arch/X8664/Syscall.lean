import LykOS.Lib.X86

/-!
# The entry of system calls

`arch_syscall_entry` of `arch/x86_64/syscall.asm`, instruction by instruction. It switches to the kernel
stack, saves the registers, calls through `syscall_table`, and puts the registers back. The number in
`rax` is compared with the length of the table as a signed number: a negative one passes, and is used as
an index. So the entry does what it is for exactly for the numbers below `2 ^ 63`, and for the others if
what lies at their place happens to be a 0 (`syscall_entry_right_iff`).
-/

namespace LykOS.Syscall

open X86 Function List

/-- The functions of `syscall_table`. -/
inductive Handler
  | accept | bind | close | connect | debugLog | exit | getpeername | getsockname | ioctl | listen
  | mmap | open | read | recv | seek | send | shutdown | socket | tcb | write
  deriving DecidableEq, Repr

def syscallTable : List Handler :=
  [.accept, .bind, .close, .connect, .debugLog, .exit, .getpeername, .getsockname, .ioctl, .listen,
    .mmap, .open, .read, .recv, .seek, .send, .shutdown, .socket, .tcb, .write]

def syscallTableLength : UInt64 := UInt64.ofNat syscallTable.length

def kernelStackOffset : UInt64 := 16
def userStackOffset : UInt64 := 24

inductive Label
  | invalidSyscall
  deriving DecidableEq

section

-- the addresses of `syscall_table` and of `syscall_table_length`
variable (table length : UInt64)

def archSyscallEntry : List (Instr Label) :=
  [ .swapgs,
    .store (.gs userStackOffset) .rsp,
    .load .rsp (.gs kernelStackOffset),
    .push .rbx,
    .push .rcx,
    .push .rbp,
    .push .rsi,
    .push .rdi,
    .push .r8,
    .push .r9,
    .push .r10,
    .push .r11,
    .push .r12,
    .push .r13,
    .push .r14,
    .push .r15,
    .cmp .rax (.abs length),
    .jcc .ge .invalidSyscall,
    .load .rax (.table table .rax),
    .cmpi .rax 0,
    .jcc .e .invalidSyscall,
    .mov .rcx .r10,
    .call (.reg .rax),
    .label .invalidSyscall,
    .pop .r15,
    .pop .r14,
    .pop .r13,
    .pop .r12,
    .pop .r11,
    .pop .r10,
    .pop .r9,
    .pop .r8,
    .pop .rdi,
    .pop .rsi,
    .pop .rbp,
    .pop .rcx,
    .pop .rbx,
    .load .rsp (.gs userStackOffset),
    .swapgs,
    .sysret ]

def savedRegs : List Reg := [.rbx, .rcx, .rbp, .rsi, .rdi, .r8, .r9, .r10, .r11, .r12, .r13, .r14, .r15]

/-- The registers of the arguments, each with the one that has it at the entry. -/
def arguments : List (Reg × Reg) :=
  [(.rdi, .rdi), (.rsi, .rsi), (.rdx, .rdx), (.rcx, .r10), (.r8, .r8), (.r9, .r9)]

/-- The entry from the state `c` on. -/
def runEntry (callee : UInt64 → Cpu → Option Cpu) (back : UInt64) (c : Cpu) : Option Outcome :=
  run callee back (archSyscallEntry table length) none [] c

/-- What the entry should do: it calls the function of a number in the table, with the six arguments, and
no other, and returns to user mode with the registers as they were. -/
structure Dispatched (c : Cpu) (o : Outcome) : Prop where
  exit : o.exit = .sysret
  index : ∀ k ∈ o.calls, c.regs .rax < syscallTableLength ∧ c.mem (table + c.regs .rax * 8) = some k.1
  called : ∀ f, c.regs .rax < syscallTableLength → c.mem (table + c.regs .rax * 8) = some f → f ≠ 0 →
    o.calls.map Prod.fst = [f]
  args : ∀ k ∈ o.calls, ∀ p ∈ arguments, k.2.regs p.1 = c.regs p.2
  regs : ∀ r ∈ savedRegs, o.cpu.regs r = c.regs r
  rsp : o.cpu.regs .rsp = c.regs .rsp

def EntryRight (callee : UInt64 → Cpu → Option Cpu) (back : UInt64) (c : Cpu) : Prop :=
  ∃ o, runEntry table length callee back c = some o ∧ Dispatched table c o

/-- The words that the entry writes: that of the user stack pointer, and those of the kernel stack, with the
return address of the call. -/
def scratch (c : Cpu) (top : UInt64) : List UInt64 := (c.kernelGs + userStackOffset) :: below top 14

/-- At the entry the kernel has its stack and its table, and they are apart. -/
structure Layout (entry : Handler → UInt64) (top : UInt64) (c : Cpu) : Prop where
  length_eq : c.mem length = some syscallTableLength
  table_eq : ∀ i (h : i < syscallTable.length),
    c.mem (table + UInt64.ofNat i * 8) = some (entry (syscallTable.get ⟨i, h⟩))
  stack : c.mem (c.kernelGs + kernelStackOffset) = some top
  mapped : ∀ a ∈ scratch c top, c.mem a ≠ none
  user_apart : c.kernelGs + userStackOffset ∉ below top 14
  length_apart : length ∉ scratch c top
  table_apart : ∀ i < syscallTable.length, table + UInt64.ofNat i * 8 ∉ scratch c top

/-- The memory behind the pushes: that at the entry, with the user stack pointer and the registers stored. -/
def savedMem (top : UInt64) (c : Cpu) : UInt64 → Option UInt64 :=
  pushWords (Function.update c.mem (c.kernelGs + userStackOffset) (some (c.regs .rsp))) top
    (savedRegs.map c.regs)

/-- The state `k` in which the function `f` is entered, by the state `c` at the entry. -/
structure Entered (top back f : UInt64) (c k : Cpu) : Prop where
  rax : k.regs .rax = f
  rcx : k.regs .rcx = c.regs .r10
  rsp : k.regs .rsp = top - 8 * 14
  regs : ∀ r, r ∉ [.rax, .rcx, .rsp] → k.regs r = c.regs r
  gs : k.gs = c.kernelGs
  kernelGs : k.kernelGs = c.gs
  mem : k.mem = pushWords (savedMem top c) (top - 8 * 13) [back]

/-- Entered in the state `k`, the function `f` returns and leaves its stack balanced: what its caller has on
the stack and in the word of the user stack pointer is as it was. -/
def Balanced (callee : UInt64 → Cpu → Option Cpu) (f : UInt64) (k : Cpu) : Prop :=
  ∃ c', callee f k = some c' ∧ c'.regs .rsp = k.regs .rsp + 8 ∧
    (∀ a ∈ above (k.regs .rsp + 8) savedRegs.length, c'.mem a = k.mem a) ∧
    c'.gs = k.gs ∧ c'.mem (k.gs + userStackOffset) = k.mem (k.gs + userStackOffset)

end

/-! ## The parts of the entry -/

def saveBlock : List (Instr Label) :=
  [.swapgs, .store (.gs userStackOffset) .rsp, .load .rsp (.gs kernelStackOffset)] ++
    savedRegs.map .push

def exitCode : List (Instr Label) :=
  [.label .invalidSyscall] ++ (savedRegs.reverse.map .pop ++
    ([.load .rsp (.gs userStackOffset), .swapgs] ++ [.sysret]))

/-- The state behind the pushes. -/
structure Saved (top : UInt64) (c s : Cpu) : Prop where
  regs : ∀ r, r ≠ .rsp → s.regs r = c.regs r
  rsp : s.regs .rsp = top - 8 * 13
  gs : s.gs = c.kernelGs
  kernelGs : s.kernelGs = c.gs
  user : s.mem (c.kernelGs + userStackOffset) = some (c.regs .rsp)
  frame : Frame s.mem (s.regs .rsp) (savedRegs.reverse.map c.regs)
  mem : s.mem = savedMem top c
  next : s.regs .rsp - 8 ∈ below top 14 ∧ s.mem (s.regs .rsp - 8) ≠ none

section

variable {table length back top : UInt64} {entry : Handler → UInt64} {c s e : Cpu}
  {callee : UInt64 → Cpu → Option Cpu}

/-- The instructions of the entry, from the comparison on. -/
def checkCode (table length : UInt64) : List (Instr Label) :=
  .cmp .rax (.abs length) :: .jcc .ge .invalidSyscall :: .load .rax (.table table .rax) :: .cmpi .rax 0 ::
    .jcc .e .invalidSyscall :: .mov .rcx .r10 :: .call (.reg .rax) :: exitCode

theorem entry_eq : archSyscallEntry table length = saveBlock ++ checkCode table length := rfl

def switched (top : UInt64) (c : Cpu) : Cpu :=
  Cpu.set { c.swapgs with
    mem := Function.update c.mem (c.kernelGs + userStackOffset) (some (c.regs .rsp)) } .rsp top

theorem savedMem_of_notMem {b : UInt64} (hb : b ∉ scratch c top) : savedMem top c b = c.mem b := by
  obtain ⟨hne, hbelow⟩ := not_or.mp (mem_cons.not.mp hb)
  rw [savedMem, pushWords_of_notMem fun hmem => hbelow (below_subset_succ hmem), update_of_ne hne]

theorem Layout.switch (h : Layout table length entry top c) :
    exec ([.swapgs, .store (.gs userStackOffset) .rsp, .load .rsp (.gs kernelStackOffset)] :
      List (Instr Label)) c = some (switched top c) := by
  have hne : c.kernelGs + kernelStackOffset ≠ c.kernelGs + userStackOffset := by
    unfold kernelStackOffset userStackOffset
    grind
  have hwrite : c.swapgs.write (c.kernelGs + userStackOffset) (c.regs .rsp) = some { c.swapgs with
      mem := update c.mem (c.kernelGs + userStackOffset) (some (c.regs .rsp)) } :=
    Cpu.write_of_mapped (h.mapped _ mem_cons_self)
  have hload : update c.mem (c.kernelGs + userStackOffset) (some (c.regs .rsp))
      (c.kernelGs + kernelStackOffset) = some top := by
    rw [update_of_ne hne, h.stack]
  show (c.swapgs.write (c.kernelGs + userStackOffset) (c.regs .rsp)).bind (exec _) = _
  rw [hwrite, Option.bind_some, exec_cons, Instr.exec]
  simp only [Addr.eval, Cpu.swapgs, hload]
  rfl

theorem Layout.save (h : Layout table length entry top c) :
    ∃ s, exec saveBlock c = some s ∧ Saved top c s := by
  have hsp : (switched top c).regs .rsp = top := Cpu.set_self
  have hregs : ∀ r, r ≠ .rsp → (switched top c).regs r = c.regs r := fun r hr => Cpu.set_of_ne hr
  have hmap : savedRegs.map (switched top c).regs = savedRegs.map c.regs :=
    map_congr_left fun r hr => hregs r fun heq => by
      rw [heq] at hr
      exact absurd hr (by decide)
  have hmem : ∀ b, b ≠ c.kernelGs + userStackOffset → (switched top c).mem b = c.mem b := fun b hb =>
    update_of_ne hb ..
  have hmapped : ∀ b ∈ below top 14, (switched top c).mem b ≠ none := fun b hb => by
    rw [hmem b fun heq => h.user_apart (heq ▸ hb)]
    exact h.mapped b (mem_cons_of_mem _ hb)
  obtain ⟨s, hexec, hpushed, hframe⟩ := exec_pushes Label (show Reg.rsp ∉ savedRegs by decide)
    (fun b hb => hmapped b (below_subset_succ (hsp ▸ hb)))
    (show Frame (switched top c).mem ((switched top c).regs .rsp) [] from trivial) (by decide)
  have hnext : s.regs .rsp - 8 ∈ below top 14 := by
    rw [hpushed.rsp, hsp]
    exact sub_mem_below
  refine ⟨s, ?_, fun r hr => (hpushed.regs r hr).trans (hregs r hr), hpushed.rsp.trans (by rw [hsp]; rfl),
    hpushed.gs, hpushed.kernelGs, ?_, ?_, (exec_pushes_mem (by decide) hexec).trans ?_, hnext,
    hpushed.mapped _ (hmapped _ hnext)⟩
  · rw [saveBlock, exec_append, h.switch]
    exact hexec
  · rw [hpushed.mem _ fun hmem => h.user_apart (below_subset_succ (hsp ▸ hmem))]
    exact update_self ..
  · rw [map_reverse, hmap, ← map_reverse, List.append_nil] at hframe
    exact hframe
  · rw [hsp, hmap]
    rfl

/-- The registers are as they were when the entry was reached. -/
def Restored (c c' : Cpu) : Prop := (∀ r ∈ savedRegs, c'.regs r = c.regs r) ∧ c'.regs .rsp = c.regs .rsp

theorem exit_spec (callee : UInt64 → Cpu → Option Cpu) (back : UInt64) (calls : List (UInt64 × Cpu))
    (hframe : Frame e.mem (e.regs .rsp) (savedRegs.reverse.map c.regs))
    (huser : e.mem (e.gs + userStackOffset) = some (c.regs .rsp)) :
    ∃ c', run callee back exitCode none calls e = some ⟨.sysret, c', calls⟩ ∧ Restored c c' := by
  obtain ⟨p, hexec, hpopped, -⟩ := exec_pops Label (show Reg.rsp ∉ savedRegs.reverse by decide)
    (show Frame e.mem (e.regs .rsp) (savedRegs.reverse.map c.regs ++ []) by rwa [List.append_nil])
  have hlast : exec ([.load .rsp (.gs userStackOffset), .swapgs] : List (Instr Label)) p =
      some (p.set .rsp (c.regs .rsp)).swapgs := by
    have hload : p.mem (p.gs + userStackOffset) = some (c.regs .rsp) := by
      rw [hpopped.mem, hpopped.gs, huser]
    rw [exec_cons, Instr.exec, Addr.eval, hload]
    rfl
  refine ⟨(p.set .rsp (c.regs .rsp)).swapgs, ?_, fun r hr => ?_, ?_⟩
  · have hlabel : exec ([.label .invalidSyscall] : List (Instr Label)) e = some e := rfl
    rw [exitCode, run_block hlabel, run_block hexec, run_block hlast, run]
  · rw [← hpopped.regs r (mem_reverse.mpr hr)]
    refine Cpu.set_of_ne fun heq => ?_
    rw [heq] at hr
    exact absurd hr (by decide)
  · rw [Cpu.swapgs_regs, Cpu.set_self]

theorem Saved.exit (hs : Saved top c s) (callee : UInt64 → Cpu → Option Cpu) (back : UInt64)
    (hmem : e.mem = s.mem) (hgs : e.gs = s.gs) (hsp : e.regs .rsp = s.regs .rsp) :
    ∃ c', run callee back exitCode none [] e = some ⟨.sysret, c', []⟩ ∧ Restored c c' := by
  refine exit_spec callee back [] ?_ ?_
  · rw [hmem, hsp]
    exact hs.frame
  · rw [hmem, hgs, hs.gs, hs.user]

/-- The state behind the second comparison, with a word of the table in `rax`. -/
def fetched (s : Cpu) (number f : UInt64) : Cpu :=
  ((s.compare number syscallTableLength).set .rax f).compare f 0

theorem fetched_rax {number f : UInt64} : (fetched s number f).regs .rax = f :=
  Cpu.set_self (c := s.compare number syscallTableLength) (r := .rax) (v := f)

theorem fetched_of_ne {number f : UInt64} {r : Reg} (h : r ≠ .rax) :
    (fetched s number f).regs r = s.regs r := update_of_ne h ..

/-- The state in front of the call. -/
def ready (s : Cpu) (number f : UInt64) : Cpu :=
  (fetched s number f).set .rcx ((fetched s number f).regs .r10)

theorem ready_rax {number f : UInt64} : (ready s number f).regs .rax = f :=
  (Cpu.set_of_ne (by decide)).trans fetched_rax

theorem ready_of_ne {number f : UInt64} {r : Reg} (hrax : r ≠ .rax) (hrcx : r ≠ .rcx) :
    (ready s number f).regs r = s.regs r :=
  (Cpu.set_of_ne hrcx).trans (fetched_of_ne hrax)

theorem Saved.entered (hs : Saved top c s) {number f : UInt64} {k : Cpu}
    (hpush : (ready s number f).push back = some k) (hpushed : Pushed 1 (ready s number f) k) :
    Entered top back f c k where
  rax := (hpushed.regs .rax (by decide)).trans ready_rax
  rcx := (hpushed.regs .rcx (by decide)).trans (Cpu.set_self.trans
    ((fetched_of_ne (by decide)).trans (hs.regs .r10 (by decide))))
  rsp := by
    rw [hpushed.sp_eq, ready_of_ne (by decide) (by decide), hs.rsp]
    grind
  regs r hr := by
    simp only [mem_cons, not_mem_nil, or_false, not_or] at hr
    rw [hpushed.regs r hr.2.2, ready_of_ne hr.1 hr.2.1, hs.regs r hr.2.2]
  gs := hpushed.gs.trans hs.gs
  kernelGs := hpushed.kernelGs.trans hs.kernelGs
  mem := by
    rw [(push_mem hpush).1, ready_of_ne (by decide) (by decide), hs.rsp, ← hs.mem]
    rfl

theorem Saved.call (hs : Saved top c s) (hapart : c.kernelGs + userStackOffset ∉ below top 14)
    (number : UInt64) {f : UInt64} (hb : ∀ k, Entered top back f c k → Balanced callee f k) :
    ∃ k c', run callee back (.call (.reg .rax) :: exitCode) none [] (ready s number f) =
        some ⟨.sysret, c', [(f, k)]⟩ ∧ Entered top back f c k ∧ Restored c c' := by
  obtain ⟨hin, hnext⟩ := hs.next
  have hsp : (ready s number f).regs .rsp = s.regs .rsp := ready_of_ne (by decide) (by decide)
  obtain ⟨k, hpush, hpushed, hframe⟩ := push_spec (c := ready s number f) back (by rw [hsp]; exact hnext)
    (by rw [hsp]; exact hs.frame) (by rw [length_map]; decide)
  have hk := hs.entered hpush hpushed
  obtain ⟨c₁, hcall, hsp₁, hkept, hgs₁, huser₁⟩ := hb k hk
  have hframe₁ : Frame c₁.mem (c₁.regs .rsp) (savedRegs.reverse.map c.regs) := by
    rw [hsp₁]
    exact hframe.2.congr hkept
  have huser : c₁.mem (c₁.gs + userStackOffset) = some (c.regs .rsp) := by
    rw [hgs₁, huser₁, hk.gs, hpushed.mem]
    · exact hs.user
    · intro hbelow
      rw [hsp] at hbelow
      exact hapart ((mem_singleton.mp hbelow) ▸ hin)
  obtain ⟨c', hrun, hc'⟩ := exit_spec callee back [(f, k)] hframe₁ huser
  have hcall' : callee ((Target.reg .rax).eval (ready s number f)) k = some c₁ := by
    rwa [Target.eval, ready_rax]
  refine ⟨k, c', ?_, hk, hc'⟩
  rw [run_call hpush hcall', Target.eval, ready_rax, nil_append, hrun]

/-- A call is recorded, whatever the function does. -/
theorem run_call_calls {o : Outcome}
    (h : run callee back (.call (.reg .rax) :: exitCode) none [] e = some o) :
    ∃ k, o.calls = [(e.regs .rax, k)] := by
  obtain ⟨k, -, h⟩ := Option.bind_eq_some_iff.mp h
  obtain ⟨c₁, -, h⟩ := Option.bind_eq_some_iff.mp h
  have hplain : ∀ i ∈ exitCode.dropLast, i.isPlain := by decide
  rw [show exitCode = exitCode.dropLast ++ [.sysret] from rfl, run_plain hplain] at h
  obtain ⟨c', -, h⟩ := Option.bind_eq_some_iff.mp h
  cases h
  exact ⟨k, rfl⟩

theorem runEntry_eq (callee : UInt64 → Cpu → Option Cpu) (back : UInt64)
    (h : Layout table length entry top c) (hexec : exec saveBlock c = some s) (hs : Saved top c s) :
    runEntry table length callee back c =
      if (c.regs .rax).toInt64 < syscallTableLength.toInt64 then
        (s.mem (table + c.regs .rax * 8)).bind fun f =>
          if f = 0 then run callee back exitCode none [] (fetched s (c.regs .rax) f)
          else run callee back (.call (.reg .rax) :: exitCode) none [] (ready s (c.regs .rax) f)
      else run callee back exitCode none [] (s.compare (c.regs .rax) syscallTableLength) := by
  have hlen : s.mem length = some syscallTableLength := by
    rw [hs.mem, savedMem_of_notMem h.length_apart, h.length_eq]
  have hrax : s.regs .rax = c.regs .rax := hs.regs .rax (by decide)
  set s₁ := s.compare (c.regs .rax) syscallTableLength with hs₁
  have hcmp : (Instr.cmp .rax (.abs length) : Instr Label).exec s = some s₁ := by
    rw [Instr.exec, Addr.eval, hlen, hrax]
    rfl
  have hindex : (Addr.table table .rax).eval s₁ = table + c.regs .rax * 8 := by
    rw [← hrax]
    rfl
  rw [runEntry, entry_eq, run_block hexec, checkCode, run_cons hcmp, run]
  by_cases hlt : (c.regs .rax).toInt64 < syscallTableLength.toInt64
  · have hge : Cond.holds s₁ .ge = false := by simp [Cond.holds, hs₁, Cpu.compare, hlt]
    rw [if_pos hlt, hge, if_neg Bool.false_ne_true, run_load, hindex]
    refine congrArg (Option.bind _) (funext fun f => ?_)
    have hcmpi : (Instr.cmpi .rax 0 : Instr Label).exec (s₁.set .rax f) =
        some (fetched s (c.regs .rax) f) := by
      rw [Instr.exec, Cpu.set_self]
      rfl
    rw [run_cons hcmpi, run]
    by_cases hzero : f = 0
    · have he : Cond.holds (fetched s (c.regs .rax) f) .e = true := by
        simp [Cond.holds, fetched, Cpu.compare, hzero]
      rw [he, if_pos hzero, if_pos rfl]
      exact run_skip (show ∀ i ∈ ([.mov .rcx .r10, .call (.reg .rax)] : List (Instr Label)),
        i.isLabel .invalidSyscall = false by simp [Instr.isLabel])
    · have he : Cond.holds (fetched s (c.regs .rax) f) .e = false := by
        simp [Cond.holds, fetched, Cpu.compare, hzero]
      have hmov : (Instr.mov .rcx .r10 : Instr Label).exec (fetched s (c.regs .rax) f) =
          some (ready s (c.regs .rax) f) := rfl
      rw [he, if_neg hzero, if_neg Bool.false_ne_true, run_cons hmov]
  · have hge : Cond.holds s₁ .ge = true := by simp [Cond.holds, hs₁, Cpu.compare, hlt]
    rw [if_neg hlt, hge, if_pos rfl]
    exact run_skip (show ∀ i ∈ ([.load .rax (.table table .rax), .cmpi .rax 0, .jcc .e .invalidSyscall,
      .mov .rcx .r10, .call (.reg .rax)] : List (Instr Label)), i.isLabel .invalidSyscall = false by
        simp [Instr.isLabel])

theorem dispatched_of_no_call {c' : Cpu} (hc' : Restored c c')
    (hno : ∀ f, c.regs .rax < syscallTableLength → c.mem (table + c.regs .rax * 8) = some f → f = 0) :
    Dispatched table c ⟨.sysret, c', []⟩ where
  exit := rfl
  index _ hk := absurd hk not_mem_nil
  called f hlt hf hne := absurd (hno f hlt hf) hne
  args _ hk := absurd hk not_mem_nil
  regs := hc'.1
  rsp := hc'.2

theorem Layout.valid (h : Layout table length entry top c) (hexec : exec saveBlock c = some s)
    (hs : Saved top c s) (hlt : c.regs .rax < syscallTableLength)
    (hb : ∀ f k, c.mem (table + c.regs .rax * 8) = some f → Entered top back f c k → Balanced callee f k) :
    EntryRight table length callee back c := by
  have hi : (c.regs .rax).toNat < syscallTable.length := UInt64.lt_iff_toNat_lt.mp hlt
  have hf := h.table_eq _ hi
  have hkept := savedMem_of_notMem (h.table_apart _ hi)
  rw [UInt64.ofNat_toNat] at hf hkept
  set f := entry (syscallTable.get ⟨_, hi⟩)
  unfold EntryRight
  rw [runEntry_eq callee back h hexec hs, if_pos ((toInt64_lt_iff (by decide)).mpr (.inr hlt)), hs.mem, hkept,
    hf, Option.bind_some]
  by_cases hzero : f = 0
  · rw [if_pos hzero]
    obtain ⟨c', hrun, hc'⟩ := hs.exit (e := fetched s (c.regs .rax) f) callee back rfl rfl
      (fetched_of_ne (by decide))
    refine ⟨_, hrun, dispatched_of_no_call hc' fun g _ hg => ?_⟩
    rw [← Option.some.inj (hf.symm.trans hg), hzero]
  · rw [if_neg hzero]
    obtain ⟨k, c', hrun, hk, hc'⟩ := hs.call h.user_apart (c.regs .rax) (hb f · hf)
    refine ⟨_, hrun, rfl, fun q hq => ?_, fun g _ hg _ => ?_, fun q hq p hp => ?_, hc'.1, hc'.2⟩
    · obtain rfl := mem_singleton.mp hq
      exact ⟨hlt, hf⟩
    · rw [← Option.some.inj (hf.symm.trans hg)]
      rfl
    · obtain rfl := mem_singleton.mp hq
      have harg : p = (.rcx, .r10) ∨ p.1 ∉ [.rax, .rcx, .rsp] ∧ p.1 = p.2 := by
        revert p
        decide
      rcases harg with rfl | ⟨hne, heq⟩
      · exact hk.rcx
      · rw [hk.regs _ hne, heq]

end

/-- For every number in `rax` and all registers, the entry does what it is for exactly if the number is
below `2 ^ 63`, or if the word that it reaches outside the table holds a 0. The function of a number in the
table has to return with its stack balanced from the state in which it is entered. -/
theorem syscall_entry_right_iff {table length top back : UInt64} {entry : Handler → UInt64} {c : Cpu}
    {callee : UInt64 → Cpu → Option Cpu} (hl : Layout table length entry top c)
    (hb : c.regs .rax < syscallTableLength → ∀ f k, c.mem (table + c.regs .rax * 8) = some f →
      Entered top back f c k → Balanced callee f k) :
    EntryRight table length callee back c ↔
      (c.regs .rax).toNat < 2 ^ 63 ∨ savedMem top c (table + c.regs .rax * 8) = some 0 := by
  obtain ⟨s, hexec, hs⟩ := hl.save
  have hsigned : (c.regs .rax).toInt64 < syscallTableLength.toInt64 ↔
      2 ^ 63 ≤ (c.regs .rax).toNat ∨ c.regs .rax < syscallTableLength := toInt64_lt_iff (by decide)
  by_cases hhigh : 2 ^ 63 ≤ (c.regs .rax).toNat
  · -- the number passes as a negative one, and what is outside the table is called
    have hout : ¬ c.regs .rax < syscallTableLength := fun hlt => by
      have hnat : (c.regs .rax).toNat < 20 := UInt64.lt_iff_toNat_lt.mp hlt
      omega
    unfold EntryRight
    rw [runEntry_eq callee back hl hexec hs, if_pos (hsigned.mpr (.inl hhigh)), hs.mem]
    constructor
    · rintro ⟨o, hrun, hd⟩
      obtain ⟨f, hf, hrun⟩ := Option.bind_eq_some_iff.mp hrun
      by_cases hzero : f = 0
      · exact .inr (hzero ▸ hf)
      · rw [if_neg hzero] at hrun
        obtain ⟨k, hcalls⟩ := run_call_calls hrun
        exact absurd (hd.index _ (hcalls ▸ mem_cons_self)).1 hout
    · rintro (hlow | hf)
      · omega
      · rw [hf, Option.bind_some, if_pos rfl]
        obtain ⟨c', hrun, hc'⟩ := hs.exit (e := fetched s (c.regs .rax) 0) callee back rfl rfl
          (fetched_of_ne (by decide))
        exact ⟨_, hrun, dispatched_of_no_call hc' fun f hlt => absurd hlt hout⟩
  · refine iff_of_true ?_ (.inl (Nat.lt_of_not_le hhigh))
    by_cases hlt : c.regs .rax < syscallTableLength
    · exact hl.valid hexec hs hlt (hb hlt)
    · unfold EntryRight
      rw [runEntry_eq callee back hl hexec hs, if_neg fun h => (hsigned.mp h).elim hhigh hlt]
      obtain ⟨c', hrun, hc'⟩ := hs.exit (e := s.compare (c.regs .rax) syscallTableLength) callee back
        rfl rfl rfl
      exact ⟨_, hrun, dispatched_of_no_call hc' fun f h => absurd h hlt⟩

/-- The table at `0x1000`, its length at `0x2000`, the thread at `0x3000`, and a stack below `0x5000`. -/
def sampleMem : UInt64 → Option UInt64 := fun a =>
  if a = 0x2000 then some syscallTableLength
  else if a = 0x3010 then some 0x5000
  else if a = 0xff8 then some 0x1234
  else if a = 0x1028 then some 0x8000
  else if 0x1000 ≤ a ∧ a < 0x10a0 then some 0x7000
  else some 0

def sampleCpu (rax : UInt64) : Cpu where
  regs r := if r = .rax then rax else 7
  mem := sampleMem
  gs := 0
  kernelGs := 0x3000
  same := false
  less := false

def sampleEntry (h : Handler) : UInt64 := if h = .exit then 0x8000 else 0x7000

/-- All functions but `syscall_exit` return at once. -/
def sampleCallee : UInt64 → Cpu → Option Cpu := fun f c =>
  if f = 0x8000 then none else some (c.set .rsp (c.regs .rsp + 8))

theorem sampleMem_ne_none (a : UInt64) : sampleMem a ≠ none := by
  unfold sampleMem
  split_ifs <;> exact Option.some_ne_none _

theorem sample_layout (rax : UInt64) :
    Layout 0x1000 0x2000 sampleEntry 0x5000 (sampleCpu rax) where
  length_eq := show sampleMem 0x2000 = some syscallTableLength by decide
  table_eq := show ∀ i (h : i < 20), sampleMem (0x1000 + UInt64.ofNat i * 8) =
    some (sampleEntry (syscallTable.get ⟨i, h⟩)) by decide
  stack := show sampleMem 0x3010 = some 0x5000 by decide
  mapped a _ := sampleMem_ne_none a
  user_apart := show 0x3018 ∉ below 0x5000 14 by decide
  length_apart := show 0x2000 ∉ 0x3018 :: below 0x5000 14 by decide
  table_apart := show ∀ i < 20, 0x1000 + UInt64.ofNat i * 8 ∉ 0x3018 :: below 0x5000 14 by decide

theorem syscall_entry_right_iff_sample :
    Layout 0x1000 0x2000 sampleEntry 0x5000 (sampleCpu 4) ∧
      EntryRight 0x1000 0x2000 sampleCallee 0x900 (sampleCpu 4) := by
  refine ⟨sample_layout 4, (syscall_entry_right_iff (sample_layout 4) fun _ f k hf _ => ?_).mpr
    (.inl (by decide))⟩
  have h7000 : sampleMem (0x1000 + 4 * 8) = some 0x7000 := by decide
  obtain rfl : 0x7000 = f := Option.some.inj (h7000.symm.trans hf)
  exact ⟨_, rfl, Cpu.set_self, fun _ _ => rfl, rfl, rfl⟩

/-- With -1 in `rax`, what is in front of the table is called. -/
theorem negative_number_called :
    Layout 0x1000 0x2000 sampleEntry 0x5000 (sampleCpu 0xffffffffffffffff) ∧
      (runEntry 0x1000 0x2000 sampleCallee 0x900 (sampleCpu 0xffffffffffffffff)).map
        (fun o => o.calls.map Prod.fst) = some [0x1234] ∧
      ¬ EntryRight 0x1000 0x2000 sampleCallee 0x900 (sampleCpu 0xffffffffffffffff) := by
  have hcalls : (runEntry 0x1000 0x2000 sampleCallee 0x900 (sampleCpu 0xffffffffffffffff)).map
      (fun o => o.calls.map Prod.fst) = some [0x1234] := by decide +kernel
  refine ⟨sample_layout _, hcalls, ?_⟩
  rintro ⟨o, hrun, hd⟩
  rw [hrun, Option.map_some, Option.some.injEq] at hcalls
  obtain ⟨k, hk, -⟩ := mem_map.mp (hcalls ▸ mem_cons_self)
  exact absurd (hd.index k hk).1 (by decide)

end LykOS.Syscall
