import LykOS.Mm.Vmm.Faults
import LykOS.Syscalls.Fd

/-!
# Mapping memory

`syscall_mmap` checks the descriptor of a request for a file, and nothing else. It asks `vmm_mmap`
for an anonymous mapping in every case, so the assertion that such a mapping has no vnode fails for
every file, and addresses and lengths that are not aligned fail another one. What is left are the
anonymous requests that are in order, and those of a descriptor that names no file
(`syscall_mmap_right_iff`).
-/

namespace LykOS.Syscalls

open Vmm (AddrSpace MmapArgs Seg hasFlag vmmMapAnon vmmMapPrivate vmmMmap mmapAsserts mmapPlace)

def mapAnon : Int32 := 0x20

/-- The current process: its resource table, and its address space. -/
structure Proc where
  table : Table ℕ
  mm : Vmm.State

structure MmapRequest where
  addr : UInt64
  length : UInt64
  prot : Int32
  flags : Int32
  fd : ℤ
  offset : UInt64

namespace MmapRequest

/-- `flags & MAP_ANON`. -/
def Anon (r : MmapRequest) : Prop := r.flags &&& mapAnon ≠ 0

instance (r : MmapRequest) : Decidable r.Anon := inferInstanceAs (Decidable (_ ≠ _))

def args (r : MmapRequest) (vnode : Option ℕ) (offset : UInt64) : MmapArgs :=
  ⟨r.addr.toNat, r.length.toNat, 0, vmmMapAnon ||| vmmMapPrivate, vnode, offset.toNat⟩

end MmapRequest

def vnodeOf (table : Table ℕ) (fd : ℤ) : Option (Option ℕ) := do
  match ← resourceGet table fd with
  | none => return none
  | some res => return res.node

/-- The end of the call; the value of `VMM_MAP_FAILED` is -1. -/
def mmapRet (M : Vfs.Machine) (p : Proc) (a : MmapArgs) : Option (SysRet × Proc) := do
  let (virt, mm) ← vmmMmap M p.mm a
  return (⟨UInt64.ofNat (virt.getD (2 ^ 64 - 1)), eok⟩, { p with mm })

def syscallMmap (M : Vfs.Machine) (p : Proc) (r : MmapRequest) : Option (SysRet × Proc) :=
  if ¬ r.Anon then do
    match ← vnodeOf p.table r.fd with
    | none => return (⟨0, ebadf⟩, p)
    | some vnode => mmapRet M p (r.args (some vnode) r.offset)
  else mmapRet M p (r.args none 0)

/-! ## Right answers -/

def MmapRequest.Aligned (r : MmapRequest) : Prop :=
  r.addr.toNat % archPageGran = 0 ∧ r.length.toNat % archPageGran = 0

def MmapRequest.File (p : Proc) (r : MmapRequest) (vnode : ℕ) : Prop :=
  ∃ res, p.table.slot r.fd = some (some res) ∧ res.node = some vnode

/-- The request cannot be met: it is not aligned, it is empty or longer than the address space, or
it is for a file and its descriptor has none. -/
def MmapRequest.Invalid (p : Proc) (r : MmapRequest) : Prop :=
  ¬ r.Aligned ∨ r.length = 0 ∨ p.mm.as.limitHigh < p.mm.as.limitLow + r.length.toNat ∨
    ¬ r.Anon ∧ ∀ vnode, ¬ r.File p vnode

/-- The call returns: no assertion of `vmm_mmap` fails. A request that is invalid gets an error, and
one for a file is mapped from its vnode. -/
structure MmapRight (M : Vfs.Machine) (p : Proc) (r : MmapRequest) : Prop where
  returns : syscallMmap M p r ≠ none
  invalid : r.Invalid p → ∀ ret p', syscallMmap M p r = some (ret, p') → ret.error ≠ eok
  file : ¬ r.Invalid p → ¬ r.Anon → ∀ vnode, r.File p vnode → ∀ ret p',
    syscallMmap M p r = some (ret, p') → ret.error = eok →
      ∃ seg ∈ p'.mm.as.segments, seg.base = ret.value.toNat ∧ seg.len = r.length.toNat ∧
        seg.vnode = some vnode ∧ seg.offset = r.offset.toNat ∧ hasFlag seg.flags vmmMapAnon = false

/-! ## The assertions -/

section

variable {M : Vfs.Machine} {p : Proc} {r : MmapRequest}

theorem mmapAsserts_args (r : MmapRequest) (vnode : Option ℕ) (offset : UInt64) :
    mmapAsserts (r.args vnode offset) = true ↔ r.Aligned ∧ vnode = none := by
  unfold mmapAsserts MmapRequest.args MmapRequest.Aligned
  cases vnode <;> simp [hasFlag, vmmMapAnon, vmmMapPrivate, Vmm.vmmMapShared]

theorem mmapRet_eq_none {vnode : Option ℕ} {offset : UInt64} (h : ¬ (r.Aligned ∧ vnode = none)) :
    mmapRet M p (r.args vnode offset) = none := by
  have hassert : ¬ mmapAsserts (r.args vnode offset) = true := by
    rw [mmapAsserts_args]
    exact h
  simp only [mmapRet, vmmMmap, mmapPlace, guard, if_neg hassert, Option.bind_eq_bind]
  rfl

theorem mmapRet_of_aligned (offset : UInt64) (h : r.Aligned) :
    ∃ value p', mmapRet M p (r.args none offset) = some (⟨value, eok⟩, p') := by
  have hassert : mmapAsserts (r.args none offset) = true := (mmapAsserts_args r none offset).mpr ⟨h, rfl⟩
  have hfixed : hasFlag (r.args none offset).flags Vmm.vmmMapFixed = false :=
    show hasFlag (vmmMapAnon ||| vmmMapPrivate) Vmm.vmmMapFixed = false by decide
  have hpopulate : hasFlag (r.args none offset).flags Vmm.vmmMapPopulate = false :=
    show hasFlag (vmmMapAnon ||| vmmMapPrivate) Vmm.vmmMapPopulate = false by decide
  simp only [mmapRet, vmmMmap, mmapPlace, guard, if_pos hassert, hfixed, hpopulate, Bool.and_false,
    Bool.false_eq_true, if_false, Option.bind_eq_bind, Option.bind_some, Option.pure_def]
  exact ⟨_, _, rfl⟩

theorem vnodeOf_cases (p : Proc) (r : MmapRequest) :
    (∃ vnode, vnodeOf p.table r.fd = some (some vnode) ∧ r.File p vnode) ∨
      vnodeOf p.table r.fd = some none ∧ ∀ vnode, ¬ r.File p vnode := by
  unfold vnodeOf
  by_cases hlive : p.table.Live r.fd
  · obtain ⟨res, hslot⟩ := hlive
    rw [resourceGet_of_slot hslot, Option.bind_eq_bind, Option.bind_some]
    cases hnode : res.node with
    | none =>
      refine Or.inr ⟨by simp only [hnode, Option.pure_def], ?_⟩
      rintro vnode ⟨res', hslot', hnode'⟩
      cases hslot.symm.trans hslot'
      cases hnode.symm.trans hnode'
    | some vnode => exact Or.inl ⟨vnode, by simp only [hnode, Option.pure_def], res, hslot, hnode⟩
  · rw [resourceGet_of_not_live hlive]
    refine Or.inr ⟨rfl, ?_⟩
    rintro vnode ⟨res, hslot, -⟩
    exact hlive ⟨res, hslot⟩

end

/-- Mapping is right exactly for anonymous requests that are aligned, not empty and not longer than the
address space, and for those of a file that the descriptor does not name. -/
theorem syscall_mmap_right_iff (M : Vfs.Machine) (p : Proc) (r : MmapRequest) :
    MmapRight M p r ↔
      if r.Anon then r.Aligned ∧ r.length ≠ 0 ∧ p.mm.as.limitLow + r.length.toNat ≤ p.mm.as.limitHigh
      else ∀ vnode, ¬ r.File p vnode := by
  by_cases hanon : r.Anon
  · have hcall : syscallMmap M p r = mmapRet M p (r.args none 0) := if_neg (not_not.mpr hanon)
    rw [if_pos hanon]
    constructor
    · intro h
      have haligned : r.Aligned := by
        by_contra hn
        exact h.returns (hcall.trans (mmapRet_eq_none fun hc => hn hc.1))
      obtain ⟨value, p', hret⟩ := mmapRet_of_aligned (M := M) (p := p) 0 haligned
      have hvalid : ¬ r.Invalid p := fun hn => h.invalid hn _ _ (hcall.trans hret) rfl
      unfold MmapRequest.Invalid at hvalid
      simp only [not_or, Nat.not_lt] at hvalid
      exact ⟨haligned, hvalid.2.1, hvalid.2.2.1⟩
    · rintro ⟨haligned, hne, hfits⟩
      obtain ⟨value, p', hret⟩ := mmapRet_of_aligned (M := M) (p := p) 0 haligned
      refine ⟨by rw [hcall, hret]; exact Option.some_ne_none _, fun hn => ?_, fun _ h => absurd hanon h⟩
      rcases hn with hn | hn | hn | hn
      · exact absurd haligned hn
      · exact absurd hn hne
      · exact absurd hn (Nat.not_lt.mpr hfits)
      · exact absurd hanon hn.1
  · rw [if_neg hanon]
    obtain ⟨vnode, hvnode, hfile⟩ | ⟨hvnode, hfile⟩ := vnodeOf_cases p r
    · have hcall : syscallMmap M p r = none := by
        rw [syscallMmap, if_pos hanon, hvnode]
        exact mmapRet_eq_none fun hc => nomatch hc.2
      exact ⟨fun h => absurd hcall h.returns, fun h => absurd hfile (h vnode)⟩
    · have hcall : syscallMmap M p r = some (⟨0, ebadf⟩, p) := by
        rw [syscallMmap, if_pos hanon, hvnode]
        rfl
      refine ⟨fun _ => hfile, fun _ => ⟨by rw [hcall]; exact Option.some_ne_none _, ?_, ?_⟩⟩
      · intro _ ret p' h
        cases hcall.symm.trans h
        decide
      · intro _ _ vnode h
        exact absurd h (hfile vnode)

def sampleProc : Proc := ⟨⟨[some ⟨some 0, 0, 3⟩], by decide⟩, Vmm.sampleFaultSpace⟩

def pageRequest (flags : Int32) : MmapRequest := ⟨0x2000, 0x1000, 3, flags, 0, 0⟩

theorem syscall_mmap_right_iff_sample :
    MmapRight Vmm.sampleFaultMachine sampleProc (pageRequest mapAnon) := by
  refine (syscall_mmap_right_iff _ _ _).mpr ?_
  rw [if_pos (by decide)]
  exact ⟨⟨by decide, by decide⟩, by decide, by decide⟩

/-- A request for a page of a file fails an assertion. -/
theorem mmap_file_asserts :
    ¬ (pageRequest 0).Invalid sampleProc ∧ (pageRequest 0).File sampleProc 0 ∧
      syscallMmap Vmm.sampleFaultMachine sampleProc (pageRequest 0) = none ∧
      ¬ MmapRight Vmm.sampleFaultMachine sampleProc (pageRequest 0) := by
  have hfile : (pageRequest 0).File sampleProc 0 := ⟨⟨some 0, 0, 3⟩, rfl, rfl⟩
  have hnone : syscallMmap Vmm.sampleFaultMachine sampleProc (pageRequest 0) = none := by rfl
  refine ⟨?_, hfile, hnone, fun h => h.returns hnone⟩
  rintro (h | h | h | h)
  · exact h ⟨by decide, by decide⟩
  · exact absurd h (by decide)
  · exact absurd h (by decide)
  · exact h.2 0 hfile

end LykOS.Syscalls
