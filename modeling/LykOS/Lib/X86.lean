import Mathlib.Algebra.Ring.Int.Defs
import Mathlib.Algebra.Ring.Nat
import Mathlib.Data.List.Basic

/-!
# A part of the x86-64 instruction set

Registers, memory in words of eight bytes, and the instructions that assembler stubs are made of. A word
that is not mapped has no value, and an access to it has no result. A program is a list of instructions, and
the place of execution is the rest of the list, so that jumps lead forward. Functions that are called are a
parameter.
-/

namespace X86

open Function List

inductive Reg
  | rax | rbx | rcx | rdx | rsi | rdi | rbp | rsp
  | r8 | r9 | r10 | r11 | r12 | r13 | r14 | r15
  deriving DecidableEq, Repr

/-- Registers, the mapped words of memory, the base of `gs` and what `swapgs` exchanges it with, and the
last comparison: whether the operands were the same, and whether the first was smaller as a signed number.
-/
structure Cpu where
  regs : Reg → UInt64
  mem : UInt64 → Option UInt64
  gs : UInt64
  kernelGs : UInt64
  same : Bool
  less : Bool

namespace Cpu

def set (c : Cpu) (r : Reg) (v : UInt64) : Cpu := { c with regs := Function.update c.regs r v }

def write (c : Cpu) (a v : UInt64) : Option Cpu :=
  (c.mem a).map fun _ => { c with mem := Function.update c.mem a (some v) }

def push (c : Cpu) (v : UInt64) : Option Cpu :=
  (c.write (c.regs .rsp - 8) v).map fun c' => c'.set .rsp (c.regs .rsp - 8)

def compare (c : Cpu) (a b : UInt64) : Cpu :=
  { c with same := decide (a = b), less := decide (a.toInt64 < b.toInt64) }

def swapgs (c : Cpu) : Cpu := { c with gs := c.kernelGs, kernelGs := c.gs }

variable {c : Cpu} {r q : Reg} {v : UInt64}

theorem set_self : (c.set r v).regs r = v := update_self ..

theorem set_of_ne (h : q ≠ r) : (c.set r v).regs q = c.regs q := update_of_ne h ..

@[simp] theorem set_mem : (c.set r v).mem = c.mem := rfl

@[simp] theorem swapgs_regs : c.swapgs.regs = c.regs := rfl

theorem write_of_mapped {a : UInt64} (h : c.mem a ≠ none) :
    c.write a v = some { c with mem := update c.mem a (some v) } := by
  obtain ⟨w, hw⟩ := Option.ne_none_iff_exists'.mp h
  rw [write, hw]
  rfl

end Cpu

inductive Addr
  | abs (a : UInt64)
  | gs (off : UInt64)
  | base (r : Reg) (off : UInt64)
  | table (a : UInt64) (index : Reg)

def Addr.eval (c : Cpu) : Addr → UInt64
  | .abs a => a
  | .gs off => c.gs + off
  | .base r off => c.regs r + off
  | .table a index => a + c.regs index * 8

inductive Target
  | reg (r : Reg)
  | abs (f : UInt64)

def Target.eval (c : Cpu) : Target → UInt64
  | .reg r => c.regs r
  | .abs f => f

inductive Cond
  | e
  | ge

def Cond.holds (c : Cpu) : Cond → Bool
  | .e => c.same
  | .ge => !c.less

/-- The instructions, with labels in `ℓ`. `cmpi` and `movi` have an immediate operand, and `zero` is the
`xor` of a register with itself. -/
inductive Instr (ℓ : Type)
  | push (r : Reg)
  | pop (r : Reg)
  | mov (dst src : Reg)
  | movi (dst : Reg) (v : UInt64)
  | zero (r : Reg)
  | load (dst : Reg) (a : Addr)
  | store (a : Addr) (src : Reg)
  | cmp (r : Reg) (a : Addr)
  | cmpi (r : Reg) (v : UInt64)
  | swapgs
  | cli
  | sti
  | label (l : ℓ)
  | jcc (k : Cond) (l : ℓ)
  | call (f : Target)
  | ret
  | sysret

section

variable {ℓ : Type}

/-- An instruction other than a jump, a call or a return. -/
def Instr.exec (c : Cpu) : Instr ℓ → Option Cpu
  | .push r => c.push (c.regs r)
  | .pop r => (c.mem (c.regs .rsp)).map fun v => (c.set .rsp (c.regs .rsp + 8)).set r v
  | .mov dst src => some (c.set dst (c.regs src))
  | .movi dst v => some (c.set dst v)
  | .zero r => some { c.set r 0 with same := true, less := false }
  | .load dst a => (c.mem (a.eval c)).map fun v => c.set dst v
  | .store a src => c.write (a.eval c) (c.regs src)
  | .cmp r a => (c.mem (a.eval c)).map fun v => c.compare (c.regs r) v
  | .cmpi r v => some (c.compare (c.regs r) v)
  | .swapgs => some c.swapgs
  | .cli | .sti | .label _ => some c
  | .jcc _ _ | .call _ | .ret | .sysret => none

/-- A block without jumps. -/
def exec (block : List (Instr ℓ)) (c : Cpu) : Option Cpu := block.foldlM (fun c i => i.exec c) c

def Instr.isLabel [DecidableEq ℓ] (l : ℓ) : Instr ℓ → Bool
  | .label l' => l' = l
  | _ => false

/-- How a program ends: with `sysret`, or with `ret` to an address. -/
inductive Exit
  | sysret
  | ret (a : UInt64)
  deriving DecidableEq

/-- The end of a program: how it came to it, the state there, and the functions that were called, each with
the state in which it was entered. -/
structure Outcome where
  exit : Exit
  cpu : Cpu
  calls : List (UInt64 × Cpu)

/-- A program, or its part behind a label if one is looked for. A function is entered with the address
behind the call, `back`, on the stack; `callee` is what it does up to its return. -/
def run [DecidableEq ℓ] (callee : UInt64 → Cpu → Option Cpu) (back : UInt64) :
    List (Instr ℓ) → Option ℓ → List (UInt64 × Cpu) → Cpu → Option Outcome
  | [], _, _, _ => none
  | i :: rest, some l, calls, c => run callee back rest (if i.isLabel l then none else some l) calls c
  | .jcc k l :: rest, none, calls, c => run callee back rest (if k.holds c then some l else none) calls c
  | .call f :: rest, none, calls, c => do
    let c' ← c.push back
    let c'' ← callee (f.eval c) c'
    run callee back rest none (calls ++ [(f.eval c, c')]) c''
  | .ret :: _, none, calls, c => do
    let a ← c.mem (c.regs .rsp)
    return ⟨.ret a, c.set .rsp (c.regs .rsp + 8), calls⟩
  | .sysret :: _, none, calls, c => some ⟨.sysret, c, calls⟩
  | i :: rest, none, calls, c => (i.exec c).bind fun c => run callee back rest none calls c

/-! ## Signed comparisons -/

theorem toInt_toInt64 (a : UInt64) :
    a.toInt64.toInt = if 2 * a.toNat < 2 ^ 64 then (a.toNat : ℤ) else a.toNat - 2 ^ 64 :=
  BitVec.toInt_eq_toNat_cond a.toBitVec

theorem toInt64_lt_iff {a b : UInt64} (hb : b.toNat < 2 ^ 63) :
    a.toInt64 < b.toInt64 ↔ 2 ^ 63 ≤ a.toNat ∨ a < b := by
  have ha := a.toNat_lt
  rw [Int64.lt_iff_toInt_lt, UInt64.lt_iff_toNat_lt, toInt_toInt64, toInt_toInt64]
  split_ifs <;> omega

/-! ## Blocks -/

variable {c c' : Cpu} {i : Instr ℓ} {block rest : List (Instr ℓ)}

theorem exec_cons : exec (i :: block) c = (i.exec c).bind (exec block) := rfl

theorem exec_append {block' : List (Instr ℓ)} :
    exec (block ++ block') c = (exec block c).bind (exec block') := foldlM_append

variable [DecidableEq ℓ] {callee : UInt64 → Cpu → Option Cpu} {back : UInt64} {calls : List (UInt64 × Cpu)}

theorem run_cons (h : i.exec c = some c') :
    run callee back (i :: rest) none calls c = run callee back rest none calls c' := by
  cases i with
  | jcc _ _ | call _ | ret | sysret => cases h
  | _ => simp only [run, h, Option.bind_some]

theorem run_block (h : exec block c = some c') :
    run callee back (block ++ rest) none calls c = run callee back rest none calls c' := by
  induction block generalizing c with
  | nil =>
    cases h
    rfl
  | cons i block ih =>
    obtain ⟨c₁, hc₁, h⟩ := Option.bind_eq_some_iff.mp h
    rw [cons_append, run_cons hc₁]
    exact ih h

/-- The instructions that `Instr.exec` covers. -/
def Instr.isPlain : Instr ℓ → Bool
  | .jcc _ _ | .call _ | .ret | .sysret => false
  | _ => true

theorem run_plain (h : ∀ i ∈ block, i.isPlain) :
    run callee back (block ++ rest) none calls c =
      (exec block c).bind (run callee back rest none calls) := by
  induction block generalizing c with
  | nil => rfl
  | cons i block ih =>
    have hi : run callee back (i :: (block ++ rest)) none calls c =
        (i.exec c).bind (run callee back (block ++ rest) none calls) := by
      cases i with
      | jcc _ _ | call _ | ret | sysret => cases h _ mem_cons_self
      | _ => rfl
    rw [cons_append, hi, exec_cons, Option.bind_assoc]
    exact congrArg (Option.bind _) (funext fun c => ih fun j hj => h j (mem_cons_of_mem _ hj))

theorem run_load {r : Reg} {a : Addr} :
    run callee back (.load r a :: rest) none calls c =
      (c.mem (a.eval c)).bind fun v => run callee back rest none calls (c.set r v) := by
  simp only [run, Instr.exec]
  cases c.mem (a.eval c) with
  | none => rfl
  | some v => rfl

theorem run_skip {l : ℓ} (h : ∀ i ∈ block, i.isLabel l = false) :
    run callee back (block ++ .label l :: rest) (some l) calls c =
      run callee back (.label l :: rest) none calls c := by
  induction block with
  | nil => simp [run, Instr.isLabel, Instr.exec]
  | cons i block ih =>
    rw [cons_append, run, h i mem_cons_self]
    exact ih fun j hj => h j (mem_cons_of_mem _ hj)

theorem run_call {f : Target} {k : Cpu} (hpush : c.push back = some k)
    (hcall : callee (f.eval c) k = some c') :
    run callee back (.call f :: rest) none calls c =
      run callee back rest none (calls ++ [(f.eval c, k)]) c' := by
  rw [run, hpush, Option.bind_eq_bind, Option.bind_some, hcall]
  rfl

theorem run_ret {a : UInt64} (h : c.mem (c.regs .rsp) = some a) :
    run callee back (.ret :: rest) none calls c = some ⟨.ret a, c.set .rsp (c.regs .rsp + 8), calls⟩ := by
  rw [run, h]
  rfl

end

/-! ## The stack -/

/-- The `n` words below an address, from the top. -/
def below (a : UInt64) : ℕ → List UInt64
  | 0 => []
  | n + 1 => (a - 8) :: below (a - 8) n

/-- The values in the words from an address on. -/
def Frame (mem : UInt64 → Option UInt64) (a : UInt64) : List UInt64 → Prop
  | [] => True
  | v :: vs => mem a = some v ∧ Frame mem (a + 8) vs

/-- The `n` words from an address on. -/
def above (a : UInt64) : ℕ → List UInt64
  | 0 => []
  | n + 1 => a :: above (a + 8) n

section

variable {mem mem' : UInt64 → Option UInt64} {a : UInt64} {vs ws : List UInt64} {n : ℕ}

theorem Frame.congr (h : Frame mem a vs) (heq : ∀ b ∈ above a vs.length, mem' b = mem b) :
    Frame mem' a vs := by
  induction vs generalizing a with
  | nil => trivial
  | cons v vs ih =>
    refine ⟨(heq a mem_cons_self).trans h.1, ih h.2 fun b hb => heq b (mem_cons_of_mem _ hb)⟩

theorem frame_append :
    Frame mem a (vs ++ ws) ↔ Frame mem a vs ∧ Frame mem (a + 8 * UInt64.ofNat vs.length) ws := by
  induction vs generalizing a with
  | nil => simp [Frame]
  | cons v vs ih =>
    have heq : a + 8 * UInt64.ofNat (v :: vs).length = a + 8 + 8 * UInt64.ofNat vs.length := by
      rw [length_cons, UInt64.ofNat_add]
      grind
    rw [cons_append, Frame, Frame, ih, heq, and_assoc]

theorem mem_above {b : UInt64} : b ∈ above a n ↔ ∃ i < n, b = a + 8 * UInt64.ofNat i := by
  induction n generalizing a with
  | zero => simp [above]
  | succ n ih =>
    have hsucc : ∀ i, a + 8 + 8 * UInt64.ofNat i = a + 8 * UInt64.ofNat (i + 1) := fun i => by
      rw [UInt64.ofNat_add]
      grind
    rw [above, mem_cons, ih]
    constructor
    · rintro (rfl | ⟨i, hi, rfl⟩)
      · exact ⟨0, Nat.succ_pos n, by simp⟩
      · exact ⟨i + 1, Nat.succ_lt_succ hi, hsucc i⟩
    · rintro ⟨i, hi, rfl⟩
      cases i with
      | zero => exact .inl (by simp)
      | succ i => exact .inr ⟨i, Nat.lt_of_succ_lt_succ hi, (hsucc i).symm⟩

theorem add_notMem_above {k : ℕ} (hn : n ≤ k) (hk : k < 2 ^ 61) : a + 8 * UInt64.ofNat k ∉ above a n := by
  intro h
  obtain ⟨i, hi, heq⟩ := mem_above.mp h
  have hnat := congrArg UInt64.toNat ((UInt64.add_right_inj a).mp heq)
  rw [UInt64.toNat_mul, UInt64.toNat_mul, UInt64.toNat_ofNat', UInt64.toNat_ofNat'] at hnat
  simp at hnat
  omega

theorem sub_notMem_above (hn : n < 2 ^ 60) : a - 8 ∉ above a n := by
  have heq : a - 8 = a + 8 * UInt64.ofNat (2 ^ 61 - 1) := by
    rw [UInt64.sub_eq_add_neg]
    rfl
  rw [heq]
  exact add_notMem_above (by omega) (by decide)

/-- Memory with values stored in the words from an address on. -/
def store (mem : UInt64 → Option UInt64) (a : UInt64) : List UInt64 → UInt64 → Option UInt64
  | [] => mem
  | v :: vs => store (Function.update mem a (some v)) (a + 8) vs

theorem store_of_notMem {b : UInt64} (h : b ∉ above a vs.length) : store mem a vs b = mem b := by
  induction vs generalizing mem a with
  | nil => rfl
  | cons v vs ih =>
    obtain ⟨hne, h⟩ := not_or.mp (mem_cons.not.mp h)
    rw [store, ih h, update_of_ne hne]

theorem frame_store (hlen : vs.length < 2 ^ 60) : Frame (store mem a vs) a vs := by
  induction vs generalizing mem a with
  | nil => trivial
  | cons v vs ih =>
    have hfirst : a ∉ above (a + 8) vs.length := by
      have hsub := sub_notMem_above (a := a + 8) (n := vs.length) (Nat.lt_of_succ_lt hlen)
      rwa [UInt64.add_sub_cancel] at hsub
    refine ⟨?_, ih (Nat.lt_of_succ_lt hlen)⟩
    rw [store, store_of_notMem hfirst, update_self]

theorem above_subset {m : ℕ} (h : m ≤ n) : above a m ⊆ above a n := fun b hb => by
  obtain ⟨i, hi, rfl⟩ := mem_above.mp hb
  exact mem_above.mpr ⟨i, by omega, rfl⟩

theorem sub_mem_below : a - 8 * UInt64.ofNat n - 8 ∈ below a (n + 1) := by
  induction n generalizing a with
  | zero => exact mem_cons.mpr (.inl (by simp))
  | succ n ih =>
    refine mem_cons_of_mem _ ?_
    have hsub : a - 8 * UInt64.ofNat (n + 1) - 8 = a - 8 - 8 * UInt64.ofNat n - 8 := by
      rw [UInt64.ofNat_add]
      grind
    rw [hsub]
    exact ih

theorem below_subset_succ : below a n ⊆ below a (n + 1) := by
  induction n generalizing a with
  | zero => exact nil_subset _
  | succ n ih => exact cons_subset_cons _ ih

/-- What `n` pushes leave: the registers with a lower stack pointer, and memory with new values in the words
below the old one. -/
structure Pushed (n : ℕ) (c c' : Cpu) : Prop where
  rsp : c'.regs .rsp = c.regs .rsp - 8 * UInt64.ofNat n
  regs : ∀ r, r ≠ .rsp → c'.regs r = c.regs r
  mem : ∀ b, b ∉ below (c.regs .rsp) n → c'.mem b = c.mem b
  mapped : ∀ b, c.mem b ≠ none → c'.mem b ≠ none
  gs : c'.gs = c.gs
  kernelGs : c'.kernelGs = c.kernelGs

theorem Pushed.refl (c : Cpu) : Pushed 0 c c :=
  ⟨by simp, fun _ _ => rfl, fun _ _ => rfl, fun _ h => h, rfl, rfl⟩

theorem Pushed.sp_eq {c c' : Cpu} (h : Pushed 1 c c') : c'.regs .rsp = c.regs .rsp - 8 := by
  rw [h.rsp]
  rfl

theorem Pushed.cons {c c₁ c' : Cpu} (h₁ : Pushed 1 c c₁) (h : Pushed n c₁ c') : Pushed (n + 1) c c' where
  rsp := by
    rw [h.rsp, h₁.sp_eq, UInt64.ofNat_add]
    grind
  regs r hr := (h.regs r hr).trans (h₁.regs r hr)
  mem b hb := by
    have hmem : b ∉ below (c.regs .rsp - 8) n := fun h => hb (mem_cons_of_mem _ h)
    have hfirst : b ∉ below (c.regs .rsp) 1 := fun h =>
      hb (mem_cons.mpr (.inl (mem_singleton.mp h)))
    rw [h.mem b (h₁.sp_eq ▸ hmem), h₁.mem b hfirst]
  mapped b hb := h.mapped b (h₁.mapped b hb)
  gs := h.gs.trans h₁.gs
  kernelGs := h.kernelGs.trans h₁.kernelGs

theorem push_spec {c : Cpu} (v : UInt64) (hmapped : c.mem (c.regs .rsp - 8) ≠ none)
    (hframe : Frame c.mem (c.regs .rsp) vs) (hlen : vs.length < 2 ^ 60) :
    ∃ c', c.push v = some c' ∧ Pushed 1 c c' ∧ Frame c'.mem (c'.regs .rsp) (v :: vs) := by
  have hmem : ∀ b, b ≠ c.regs .rsp - 8 →
      update c.mem (c.regs .rsp - 8) (some v) b = c.mem b := fun b hb =>
    update_of_ne hb ..
  have hpush : c.push v = some ({ c with
      mem := update c.mem (c.regs .rsp - 8) (some v) }.set .rsp (c.regs .rsp - 8)) := by
    rw [Cpu.push, Cpu.write_of_mapped hmapped]
    rfl
  refine ⟨_, hpush, ⟨Cpu.set_self, fun q hq => Cpu.set_of_ne hq,
    fun b hb => hmem b fun h => hb (h ▸ mem_cons_self), fun b hb => ?_, rfl, rfl⟩, ?_⟩
  · show update c.mem (c.regs .rsp - 8) (some v) b ≠ none
    by_cases hbeq : b = c.regs .rsp - 8
    · rw [hbeq, update_self]
      exact Option.some_ne_none v
    · rwa [hmem b hbeq]
  · rw [Cpu.set_self, Cpu.set_mem]
    refine ⟨update_self .., ?_⟩
    rw [UInt64.sub_add_cancel]
    exact hframe.congr fun b hb => hmem b fun h => sub_notMem_above hlen (h ▸ hb)

theorem push_room {c : Cpu} (v : UInt64) (hmapped : ∀ a ∈ below (c.regs .rsp) (n + 1), c.mem a ≠ none)
    (hframe : Frame c.mem (c.regs .rsp) vs) (hlen : vs.length < 2 ^ 60) :
    ∃ c', c.push v = some c' ∧ Pushed 1 c c' ∧ Frame c'.mem (c'.regs .rsp) (v :: vs) ∧
      ∀ a ∈ below (c'.regs .rsp) n, c'.mem a ≠ none := by
  obtain ⟨c', hpush, hpushed, hframe'⟩ := push_spec v (hmapped _ mem_cons_self) hframe hlen
  refine ⟨c', hpush, hpushed, hframe', fun a ha => hpushed.mapped a (hmapped a ?_)⟩
  exact mem_cons_of_mem _ (hpushed.sp_eq ▸ ha)

/-- Memory with values pushed below an address. -/
def pushWords (mem : UInt64 → Option UInt64) (a : UInt64) : List UInt64 → UInt64 → Option UInt64
  | [] => mem
  | v :: vs => pushWords (Function.update mem (a - 8) (some v)) (a - 8) vs

theorem pushWords_of_notMem {b : UInt64} (h : b ∉ below a vs.length) : pushWords mem a vs b = mem b := by
  induction vs generalizing mem a with
  | nil => rfl
  | cons v vs ih =>
    obtain ⟨hne, h⟩ := not_or.mp (mem_cons.not.mp h)
    rw [pushWords, ih h, update_of_ne hne]

theorem push_mem {c c' : Cpu} {v : UInt64} (h : c.push v = some c') :
    c'.mem = pushWords c.mem (c.regs .rsp) [v] ∧ c'.regs = update c.regs .rsp (c.regs .rsp - 8) := by
  obtain ⟨d, hwrite, rfl⟩ := Option.map_eq_some_iff.mp h
  obtain ⟨w, -, rfl⟩ := Option.map_eq_some_iff.mp hwrite
  exact ⟨rfl, rfl⟩

theorem exec_pushes_mem {ℓ : Type} {c c' : Cpu} {rs : List Reg} (hrsp : .rsp ∉ rs)
    (h : exec (rs.map .push : List (Instr ℓ)) c = some c') :
    c'.mem = pushWords c.mem (c.regs .rsp) (rs.map c.regs) := by
  induction rs generalizing c with
  | nil => exact congrArg Cpu.mem (Option.some.inj h).symm
  | cons r rs ih =>
    obtain ⟨c₁, hpush, h⟩ := Option.bind_eq_some_iff.mp h
    obtain ⟨hmem, hregs⟩ := push_mem hpush
    have hmap : rs.map c₁.regs = rs.map c.regs := map_congr_left fun q hq => by
      have hne : q ≠ .rsp := fun heq => hrsp (mem_cons_of_mem _ (heq ▸ hq))
      rw [hregs, update_of_ne hne]
    rw [ih (fun hmem => hrsp (mem_cons_of_mem _ hmem)) h, hmap, hmem, hregs, update_self]
    rfl

theorem exec_pushes (ℓ : Type) {c : Cpu} {rs : List Reg} (hrsp : .rsp ∉ rs)
    (hmapped : ∀ b ∈ below (c.regs .rsp) rs.length, c.mem b ≠ none)
    (hframe : Frame c.mem (c.regs .rsp) vs) (hlen : rs.length + vs.length < 2 ^ 60) :
    ∃ c', exec (rs.map .push : List (Instr ℓ)) c = some c' ∧ Pushed rs.length c c' ∧
      Frame c'.mem (c'.regs .rsp) (rs.reverse.map c.regs ++ vs) := by
  induction rs generalizing c vs with
  | nil => exact ⟨c, rfl, Pushed.refl c, hframe⟩
  | cons r rs ih =>
    rw [length_cons] at hlen
    obtain ⟨c₁, hpush, hpushed₁, hframe₁⟩ := push_spec (c.regs r) (hmapped _ mem_cons_self) hframe
      (by omega)
    obtain ⟨c', hexec, hpushed, hframe'⟩ := ih (c := c₁) (fun h => hrsp (mem_cons_of_mem _ h))
      (fun b hb => hpushed₁.mapped b (hmapped b (mem_cons_of_mem _ (hpushed₁.sp_eq ▸ hb)))) hframe₁
      (by rw [length_cons]; omega)
    refine ⟨c', ?_, hpushed₁.cons hpushed, ?_⟩
    · rw [map_cons, exec_cons, Instr.exec, hpush]
      exact hexec
    · have hmap : rs.reverse.map c₁.regs = rs.reverse.map c.regs :=
        map_congr_left fun q hq => hpushed₁.regs q fun h =>
          hrsp (h ▸ mem_cons_of_mem _ (mem_reverse.mp hq))
      rw [hmap] at hframe'
      rw [reverse_cons, map_append, append_assoc]
      exact hframe'

/-- What a block of pops leaves: the values `g` in the registers. -/
structure Popped (rs : List Reg) (g : Reg → UInt64) (c c' : Cpu) : Prop where
  rsp : c'.regs .rsp = c.regs .rsp + 8 * UInt64.ofNat rs.length
  regs : ∀ r ∈ rs, c'.regs r = g r
  others : ∀ r ∉ rs, r ≠ .rsp → c'.regs r = c.regs r
  mem : c'.mem = c.mem
  gs : c'.gs = c.gs
  kernelGs : c'.kernelGs = c.kernelGs

theorem exec_pops (ℓ : Type) {c : Cpu} {rs : List Reg} {g : Reg → UInt64} (hrsp : .rsp ∉ rs)
    (hframe : Frame c.mem (c.regs .rsp) (rs.map g ++ ws)) :
    ∃ c', exec (rs.map .pop : List (Instr ℓ)) c = some c' ∧ Popped rs g c c' ∧
      Frame c'.mem (c'.regs .rsp) ws := by
  induction rs generalizing c with
  | nil =>
    exact ⟨c, rfl, ⟨by simp, fun _ h => absurd h not_mem_nil, fun _ _ _ => rfl, rfl, rfl, rfl⟩, hframe⟩
  | cons r rs ih =>
    have hr : .rsp ≠ r := fun h => hrsp (h ▸ mem_cons_self)
    obtain ⟨hv, hframe⟩ := hframe
    have hsp : ((c.set .rsp (c.regs .rsp + 8)).set r (g r)).regs .rsp = c.regs .rsp + 8 :=
      (Cpu.set_of_ne hr).trans Cpu.set_self
    obtain ⟨c', hexec, hpopped, hframe'⟩ := ih (c := (c.set .rsp (c.regs .rsp + 8)).set r (g r))
      (fun h => hrsp (mem_cons_of_mem _ h)) (by rw [hsp]; exact hframe)
    refine ⟨c', ?_, ⟨?_, fun q hq => ?_, fun q hq hqsp => ?_, hpopped.mem, hpopped.gs,
      hpopped.kernelGs⟩, hframe'⟩
    · rw [map_cons, exec_cons, Instr.exec, hv]
      exact hexec
    · rw [hpopped.rsp, hsp, length_cons, UInt64.ofNat_add]
      grind
    · by_cases hmem : q ∈ rs
      · exact hpopped.regs q hmem
      · obtain rfl : q = r := (mem_cons.mp hq).resolve_right hmem
        rw [hpopped.others q hmem hr.symm, Cpu.set_self]
    · obtain ⟨hqr, hmem⟩ := not_or.mp (mem_cons.not.mp hq)
      rw [hpopped.others q hmem hqsp, Cpu.set_of_ne hqr, Cpu.set_of_ne hqsp]

theorem exec_zeros (ℓ : Type) (c : Cpu) (rs : List Reg) :
    ∃ c', exec (rs.map .zero : List (Instr ℓ)) c = some c' ∧ (∀ r ∈ rs, c'.regs r = 0) ∧
      ∀ r ∉ rs, c'.regs r = c.regs r := by
  induction rs generalizing c with
  | nil => exact ⟨c, rfl, fun _ h => absurd h not_mem_nil, fun _ _ => rfl⟩
  | cons r rs ih =>
    obtain ⟨c', hexec, hzero, hothers⟩ := ih { c.set r 0 with same := true, less := false }
    refine ⟨c', hexec, fun q hq => ?_, fun q hq => ?_⟩
    · by_cases hmem : q ∈ rs
      · exact hzero q hmem
      · obtain rfl : q = r := (mem_cons.mp hq).resolve_right hmem
        rw [hothers q hmem]
        exact update_self ..
    · obtain ⟨hne, hmem⟩ := not_or.mp (mem_cons.not.mp hq)
      rw [hothers q hmem]
      exact update_of_ne hne ..

end

end X86
