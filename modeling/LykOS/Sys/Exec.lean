import LykOS.Common.Elf
import LykOS.Mm.Pmm.Model
import LykOS.Mm.Vmm.Copy
import Mathlib.Algebra.BigOperators.Group.List.Basic
import Mathlib.Data.Finset.Card

/-!
# Loading executables

`exec_load` of `sys/exec.c`, with `x86_64_abi_stack_setup`. A segment is mapped page by page at its address,
its bytes are read into a buffer and copied from there; the thread's stack is placed last, at address 0 or
where `vmm_find_space` finds room.

The frames are a finite supply: `pmm_alloc` panics when there are none left, or no block of the order of the
buffer, and the kernel reaches them through its window at `HHDM`, which ends below its own image (`Memory`).
All segments are populated, so an
executable that leaves no room for the stack does not get as far as the stack (`Memory.limit_le`).
-/

namespace LykOS.Exec

open Vfs Vmm Elf Interval Function List
open Option hiding guard

/-- The order of the buffer that a segment is read into. -/
def bufOrder : ℕ := 10

/-- Physical memory: the first `limit` frames exist. They are seen at `hhdm`, in the higher half, below
the 2 GiB of the kernel image at `virtualBase`. `block n` says that `pmm_alloc` finds a block for the buffer
when `n` frames have been taken. -/
structure Memory extends Vfs.Machine where
  hhdm : ℕ
  virtualBase : ℕ
  limit : ℕ
  block : ℕ → Bool
  block_le : ∀ n, block n = true → n + Pmm.pmmOrderToPagecount bufOrder ≤ limit
  hhdm_le : archKernelMinVirt ≤ hhdm
  image : virtualBase + 2 * gib ≤ 2 ^ 64
  window : ∀ n < limit, hhdm + frames n + archPageGran ≤ virtualBase

/-- The state, unless more frames have been taken than there are. -/
def within (M : Memory) (st : State) : Option State :=
  if st.store.taken ≤ M.limit then some st else none

/-- `vmm_mmap`, which panics without a frame. -/
def mmap (M : Memory) (st : State) (a : MmapArgs) : Option (Option ℕ × State) := do
  let (virt, st) ← vmmMmap M.toMachine st a
  let st ← within M st
  return (virt, st)

def segmentFlags : ℕ := vmmMapAnon ||| vmmMapPopulate ||| vmmMapFixed ||| vmmMapPrivate

def segmentArgs (ph : Phdr) : MmapArgs :=
  let start := floorTo ph.vaddr archPageGran
  let stop := ceilTo (u64 (ph.vaddr + ph.memsz)) archPageGran
  ⟨start, u64 (stop + 2 ^ 64 - start), vmmProtFull, segmentFlags, none, 0⟩

/-- The body of the loop for a segment, with what the buffer holds at first. -/
def loadSegment (M : Memory) (file : Vnode) (buf : ℕ → UInt8) (st : State) (ph : Phdr) :
    Option State := do
  let (_, st) ← mmap M st (segmentArgs ph)
  guard (ph.filesz ≤ Pmm.pmmOrderToPagecount bufOrder * archPageGran)
  guard (M.block st.store.taken)
  let bytes := fill buf (file.read ph.offset ph.filesz).2
  let (_, st) ← vmmCopyTo M.toMachine st ph.vaddr bytes ph.filesz
  return st

/-- What the buffers of `exec_load` hold before it writes to them, and the kernel stack of the thread. -/
structure Junk where
  phTable : ℕ → UInt8
  buf : ℕ → ℕ → UInt8
  kernelStack : ℕ → UInt8

def Loads (ph : Phdr) : Prop := ph.type = ptLoad ∧ ph.memsz ≠ 0

instance (ph : Phdr) : Decidable (Loads ph) := inferInstanceAs (Decidable (_ ∧ _))

/-- One round of the loop. A header behind the table is whatever the heap holds there. -/
def loadRound (M : Memory) (junk : Junk) (file : Vnode) (phTable : ℕ → UInt8) (st : State) (i : ℕ) :
    Option State :=
  let ph := Phdr.decode phTable (i * sizeofPhdr)
  if Loads ph then loadSegment M file (junk.buf i) st ph else some st

def stackArgs : MmapArgs :=
  ⟨0, archPageGran * 8, vmmProtFull, vmmMapAnon ||| vmmMapPopulate ||| vmmMapPrivate, none, 0⟩

def allocKernelStack (M : Memory) (junk : Junk) (st : State) : State :=
  { st with store := st.store.alloc.setMem (M.frames st.store.taken) junk.kernelStack }

/-- `thread_new` for a user process: the kernel stack, and `x86_64_abi_stack_setup`. -/
def threadNew (M : Memory) (junk : Junk) (st : State) : Option State := do
  let (stackPtr, st) ← mmap M (allocKernelStack M junk st) stackArgs
  guard stackPtr.isSome
  return st

/-- `proc_new`, as far as the address space goes. -/
def procNew (st : State) : State :=
  { st with as := vmmNewAddrSpace archUserMinVirt archUserMaxVirt, pages := fun _ => none }

/-- `exec_load`, where `proc_new` returns `proc`: the address space of the new process, or `NULL`. -/
def execLoadAt (M : Memory) (junk : Junk) (proc : State) (file : Vnode) : Option (Option State) := do
  let (status, bytes) := file.read 0 sizeofEhdr
  if status < 0 ∨ bytes.length ≠ sizeofEhdr then return none
  else
    let ehdr := Ehdr.decode fun i => bytes[i]?.getD 0
    if elfCheckCompatibility ehdr = false then return none
    else if ehdr.type ≠ etExec then return none
    else
      let size := ehdr.phentsize * ehdr.phnum
      guard (size ≤ 1024)
      let phTable := fill junk.phTable (file.read ehdr.phoff size).2
      let st ← (List.range ehdr.phnum).foldlM (loadRound M junk file phTable) proc
      let st ← threadNew M junk st
      return some st

def execLoad (M : Memory) (junk : Junk) (st : State) (file : Vnode) : Option (Option State) :=
  execLoadAt M junk (procNew st) file

/-! ## Executables -/

/-- The page-rounded range of a segment is from `start` to `stop`. -/
def start (ph : Phdr) : ℕ := floorTo ph.vaddr archPageGran

def stop (ph : Phdr) : ℕ := (ph.vaddr + ph.memsz + archPageGran - 1) / archPageGran * archPageGran

def pages (ph : Phdr) : ℕ := (stop ph - start ph) / archPageGran

def phdr (f : File) (i : ℕ) : Phdr :=
  Phdr.decode (fun k => f.bytes ((Ehdr.decode f.bytes).phoff + k)) (i * sizeofPhdr)

def segments (f : File) (n : ℕ) : List Phdr := ((List.range n).map (phdr f)).filter fun ph => Loads ph

/-- The range of a segment is in user space, its file bytes are there and fit. -/
structure Segment (f : File) (ph : Phdr) : Prop where
  stop_le : stop ph ≤ archUserMaxVirt
  filesz_le : ph.filesz ≤ ph.memsz
  filesz_max : ph.filesz ≤ 4 * 1024 * 1024
  in_file : ph.offset + ph.filesz ≤ f.size

instance (f : File) (ph : Phdr) : Decidable (Segment f ph) :=
  decidable_of_iff (stop ph ≤ archUserMaxVirt ∧ ph.filesz ≤ ph.memsz ∧ ph.filesz ≤ 4 * 1024 * 1024 ∧
    ph.offset + ph.filesz ≤ f.size)
    ⟨fun ⟨h1, h2, h3, h4⟩ => ⟨h1, h2, h3, h4⟩, fun ⟨h1, h2, h3, h4⟩ => ⟨h1, h2, h3, h4⟩⟩

/-- An executable file. -/
structure Executable (f : File) : Prop where
  header : sizeofEhdr ≤ f.size
  compatible : elfCheckCompatibility (Ehdr.decode f.bytes) = true
  type : (Ehdr.decode f.bytes).type = etExec
  phentsize : (Ehdr.decode f.bytes).phentsize = sizeofPhdr
  table_le : sizeofPhdr * (Ehdr.decode f.bytes).phnum ≤ 1024
  table_in_file : (Ehdr.decode f.bytes).phoff + sizeofPhdr * (Ehdr.decode f.bytes).phnum ≤ f.size
  segment : ∀ ph ∈ segments f (Ehdr.decode f.bytes).phnum, Segment f ph
  apart : (segments f (Ehdr.decode f.bytes).phnum).Pairwise fun ph ph' =>
    stop ph ≤ start ph' ∨ stop ph' ≤ start ph

/-- The byte of a segment at an address of its range: of the file, or 0. -/
def imageByte (f : File) (ph : Phdr) (x : ℕ) : UInt8 :=
  if ph.vaddr ≤ x ∧ x < ph.vaddr + ph.filesz then f.bytes (ph.offset + (x - ph.vaddr)) else 0

/-- The address space reads the segments in their ranges. -/
def ReadsBack (f : File) (l : List Phdr) (st : State) : Prop :=
  ∀ ph ∈ l, ∀ x, start ph ≤ x → x < stop ph → st.read x = some (imageByte f ph x)

/-- The frames that an executable needs: its pages, the kernel stack and the stack. -/
def framesNeeded (f : File) : ℕ := ((segments f (Ehdr.decode f.bytes).phnum).map pages).sum + 9

/-! ## Memory -/

theorem Memory.limit_le (M : Memory) : M.limit * archPageGran + 2 * gib ≤ 2 ^ 47 := by
  have hmap : ∀ n ∈ Finset.range M.limit,
      M.frames n / archPageGran ∈ Finset.range ((2 ^ 47 - 2 * gib) / archPageGran) := by
    intro n hn
    have hwin := M.window n (Finset.mem_range.mp hn)
    have hlow := M.hhdm_le
    have himage := M.image
    rw [Finset.mem_range]
    unfold archKernelMinVirt gib archPageGran at *
    omega
  have hinj : Set.InjOn (fun n => M.frames n / archPageGran) (Finset.range M.limit) := by
    intro m _ n _ hmn
    have hm := M.aligned m
    have hn := M.aligned n
    simp only at hmn
    refine M.injective ?_
    unfold archPageGran at *
    omega
  have hcard := Finset.card_le_card_of_injOn _ hmap hinj
  rw [Finset.card_range, Finset.card_range] at hcard
  unfold gib archPageGran at *
  omega

theorem mmap_eq {M : Memory} {st st' : State} {a : MmapArgs} {virt : Option ℕ}
    (h : vmmMmap M.toMachine st a = some (virt, st')) :
    mmap M st a = (within M st').map fun st' => (virt, st') := by
  simp only [mmap, h, bind_eq_bind, Option.bind_some]
  cases within M st' <;> rfl

/-! ## One segment -/

structure Range (ph : Phdr) : Prop where
  start_page : start ph % archPageGran = 0
  stop_page : stop ph % archPageGran = 0
  start_le : start ph ≤ ph.vaddr
  le_stop : ph.vaddr + ph.memsz ≤ stop ph
  lt : start ph < stop ph
  pages : pages ph * archPageGran = stop ph - start ph

theorem range_of_loads {ph : Phdr} (h : Loads ph) : Range ph := by
  have hmem := h.2
  have hstart : start ph % archPageGran = 0 := Nat.mul_mod_left _ _
  have hstop : stop ph % archPageGran = 0 := Nat.mul_mod_left _ _
  have hle : start ph ≤ ph.vaddr := Nat.div_mul_le_self _ _
  have hend : ph.vaddr + ph.memsz ≤ stop ph := by
    unfold stop archPageGran
    omega
  refine ⟨hstart, hstop, hle, hend, by omega, ?_⟩
  unfold pages archPageGran at *
  omega

theorem segmentArgs_eq {ph : Phdr} (h : Loads ph) (hstop : stop ph ≤ archUserMaxVirt) :
    (segmentArgs ph).virt = start ph ∧ (segmentArgs ph).len = stop ph - start ph := by
  have hr := range_of_loads h
  have hend : ph.vaddr + ph.memsz < 2 ^ 47 := by
    have hle := hr.le_stop
    unfold archUserMaxVirt at hstop
    omega
  have hceil : ceilTo (u64 (ph.vaddr + ph.memsz)) archPageGran = stop ph := by
    rw [u64_of_lt (by omega), ceilTo, u64_of_lt (by unfold archPageGran; omega), stop]
  refine ⟨rfl, ?_⟩
  show u64 (ceilTo (u64 (ph.vaddr + ph.memsz)) archPageGran + 2 ^ 64 - start ph) = _
  have hlt := hr.lt
  rw [hceil]
  unfold u64 archUserMaxVirt at *
  omega

theorem segmentArgs_anonymous (ph : Phdr) : (segmentArgs ph).IsAnonymous where
  isPrivate := (by decide : hasFlag segmentFlags vmmMapPrivate = true)
  anon := (by decide : hasFlag segmentFlags vmmMapAnon = true)
  populate := (by decide : hasFlag segmentFlags vmmMapPopulate = true)
  vnode := rfl

/-- The segments of the list have been loaded, one after the other, from when `base` frames had been
taken. -/
structure Loaded (M : Memory) (f : File) (base : ℕ) (l : List Phdr) (st : State) : Prop where
  tidy : TidySpace archUserMinVirt archUserMaxVirt st.as
  own : OwnFrames M.toMachine st
  segs : (st.as.segments.map fun s => (s.base, s.len)).Perm
    (l.map fun ph => (start ph, stop ph - start ph))
  taken : st.store.taken = base + (l.map pages).sum
  read : ReadsBack f l st

section

variable {M : Memory} {f : File} {base : ℕ} {l : List Phdr} {st : State}

theorem loaded_nil (M : Memory) (f : File) (st : State) :
    Loaded M f st.store.taken [] (procNew st) where
  tidy := ⟨rfl, rfl, trivial⟩
  own := ⟨fun _ _ _ h => absurd h.symm (some_ne_none _),
    fun _ _ _ h => absurd h.symm (some_ne_none _)⟩
  segs := List.Perm.refl _
  taken := rfl
  read := fun _ h => absurd h not_mem_nil

theorem Loaded.exists_phdr (h : Loaded M f base l st) {s : Seg} (hs : s ∈ st.as.segments) :
    ∃ ph ∈ l, s.base = start ph ∧ s.len = stop ph - start ph := by
  obtain ⟨ph, hph, heq⟩ := List.mem_map.mp (h.segs.mem_iff.mp (List.mem_map_of_mem hs))
  obtain ⟨hbase, hlen⟩ := Prod.mk.inj heq
  exact ⟨ph, hph, hbase.symm, hlen.symm⟩

theorem Loaded.exists_seg (h : Loaded M f base l st) {ph : Phdr} (hph : ph ∈ l) :
    ∃ s ∈ st.as.segments, s.base = start ph ∧ s.len = stop ph - start ph := by
  obtain ⟨s, hs, heq⟩ := List.mem_map.mp
    (h.segs.mem_iff.mpr (List.mem_map_of_mem (f := fun ph => (start ph, stop ph - start ph)) hph))
  obtain ⟨hbase, hlen⟩ := Prod.mk.inj heq
  exact ⟨s, hs, hbase, hlen⟩

variable {ph : Phdr}

theorem Loaded.apart_seg (h : Loaded M f base l st) (hph : Loads ph) (hloads : ∀ ph' ∈ l, Loads ph')
    (hapart : ∀ ph' ∈ l, stop ph' ≤ start ph ∨ stop ph ≤ start ph') {s : Seg}
    (hs : s ∈ st.as.segments) :
    0 < s.len ∧ s.base + s.len ≤ 2 ^ 64 ∧ Apart s.base s.len (start ph) (stop ph - start ph) := by
  obtain ⟨ph', hph', hbase, hslen⟩ := h.exists_phdr hs
  obtain ⟨-, hpos, htop⟩ := h.tidy.2.2.bounds s hs
  have hlt := (range_of_loads hph).lt
  have hlt' := (range_of_loads (hloads ph' hph')).lt
  have hsides := hapart ph' hph'
  unfold archUserMaxVirt at htop
  exact ⟨hpos, by omega, apart_of_le (by omega)⟩

theorem segmentArgs_aligned (ph : Phdr) :
    (segmentArgs ph).virt % archPageGran = 0 ∧ (segmentArgs ph).len % archPageGran = 0 := by
  unfold segmentArgs ceilTo floorTo u64 archPageGran
  dsimp only
  omega

theorem segmentArgs_asserts (ph : Phdr) : mmapAsserts (segmentArgs ph) = true := by
  have hpage := segmentArgs_aligned ph
  have hflags : (hasFlag segmentFlags vmmMapPrivate ^^ hasFlag segmentFlags vmmMapShared) = true ∧
      (hasFlag segmentFlags vmmMapAnon ^^ (none : Option ℕ).isSome) = true := by decide
  rw [mmapAsserts, decide_eq_true hpage, Bool.true_and, Bool.and_eq_true]
  exact hflags

theorem Loaded.accepted (h : Loaded M f base l st) (hph : Loads ph) (hstop : stop ph ≤ archUserMaxVirt)
    (hloads : ∀ ph' ∈ l, Loads ph') (hapart : ∀ ph' ∈ l, stop ph' ≤ start ph ∨ stop ph ≤ start ph') :
    mmapRefused st.as (segmentArgs ph) = false := by
  obtain ⟨hvirt, hlen⟩ := segmentArgs_eq hph hstop
  have hlt := (range_of_loads hph).lt
  unfold archUserMaxVirt at hstop
  have hfree : vmmCheckCollision st.as (start ph) (stop ph - start ph) = false :=
    checkCollision_of_apart (by omega) (by omega) fun s hs => h.apart_seg hph hloads hapart hs
  have hbounds : vmmIsInBounds st.as (start ph) (stop ph - start ph) = true := by
    rw [vmmIsInBounds, decide_eq_true_eq, h.tidy.1, h.tidy.2.1, u64_of_lt (by omega)]
    unfold archUserMinVirt archUserMaxVirt
    omega
  rw [mmapRefused, hvirt, hlen, hfree, hbounds]
  rfl

theorem Loaded.place (h : Loaded M f base l st) (hph : Loads ph) (hstop : stop ph ≤ archUserMaxVirt)
    (hloads : ∀ ph' ∈ l, Loads ph') (hapart : ∀ ph' ∈ l, stop ph' ≤ start ph ∨ stop ph ≤ start ph') :
    ∃ as', mmapPlace st.as (segmentArgs ph) = some (some (start ph), as') ∧
      TidySpace archUserMinVirt archUserMaxVirt as' ∧
      (as'.segments.map fun s => (s.base, s.len)).Perm
        ((start ph, stop ph - start ph) :: st.as.segments.map fun s => (s.base, s.len)) := by
  obtain ⟨hvirt, hlen⟩ := segmentArgs_eq hph hstop
  have hlt := (range_of_loads hph).lt
  have hplace := mmapPlace_of_accepted (segmentArgs_asserts ph)
    (h.accepted hph hstop hloads hapart)
  rw [hvirt] at hplace
  let seg := mmapSegment (segmentArgs ph) (start ph)
  have hsegLen : seg.len = stop ph - start ph := hlen
  refine ⟨vmmInsertSeg st.as seg, hplace, ⟨h.tidy.1, h.tidy.2.1, ?_⟩, ?_⟩
  · have hend : seg.base + seg.len ≤ archUserMaxVirt + 1 := by
      show start ph + seg.len ≤ _
      omega
    refine h.tidy.2.2.insert (Nat.zero_le _) (by omega) hend fun s hs => ?_
    rw [hsegLen]
    exact (h.apart_seg hph hloads hapart hs).2.2
  · have hperm := (insertByBase_perm Seg.base seg st.as.segments).map fun s => (s.base, s.len)
    rw [map_cons, hsegLen] at hperm
    exact hperm

theorem within_of_le {st : State} (h : st.store.taken ≤ M.limit) : within M st = some st := if_pos h

theorem within_of_not_le {st : State} (h : ¬ st.store.taken ≤ M.limit) : within M st = none := if_neg h

/-- A part of the loader that ends in `st'` or panics, and does not panic with frames and blocks enough from
`base` on. -/
structure Reaches (M : Memory) (base : ℕ) (x : Option State) (st' : State) : Prop where
  eq_of_some : ∀ r, x = some r → r = st' ∧ st'.store.taken ≤ M.limit
  some_of : st'.store.taken ≤ M.limit → (∀ n ≤ st'.store.taken, base ≤ n → M.block n) → x = some st'

theorem reaches_some {st : State} (h : st.store.taken ≤ M.limit) : Reaches M base (some st) st :=
  ⟨fun _ hr => ⟨(Option.some.inj hr).symm, h⟩, fun _ _ => rfl⟩

theorem Reaches.bind {x : Option State} {st st' : State} {g : State → Option State} (h : Reaches M base x st)
    (hle : st.store.taken ≤ st'.store.taken)
    (hg : st.store.taken ≤ M.limit → Reaches M base (g st) st') : Reaches M base (x.bind g) st' := by
  constructor
  · intro r hr
    obtain ⟨st₁, hx, hr⟩ := bind_eq_some_iff.mp hr
    obtain ⟨rfl, hfit⟩ := h.eq_of_some st₁ hx
    exact (hg hfit).eq_of_some r hr
  · intro hfit hblock
    rw [h.some_of (hle.trans hfit) fun n hn => hblock n (hn.trans hle), Option.bind_some]
    exact (hg (hle.trans hfit)).some_of hfit hblock

/-- From `st` to `st'` the segment has been mapped, in an address space `as'`, and copied. -/
structure Stored (M : Memory) (f : File) (ph : Phdr) (as' : AddrSpace) (st st' : State) : Prop where
  as : st'.as = as'
  own : OwnFrames M.toMachine st'
  taken : st'.store.taken = st.store.taken + pages ph
  read : ∀ x, st'.read x =
    if start ph ≤ x ∧ x < stop ph then some (imageByte f ph x) else st.read x

theorem loadSegment_stored (cached : Bool) (buf : ℕ → UInt8) (hown : OwnFrames M.toMachine st)
    (hbase : base ≤ st.store.taken) (hph : Loads ph) (hseg : Segment f ph) {as' : AddrSpace}
    (hplace : mmapPlace st.as (segmentArgs ph) = some (some (start ph), as')) :
    ∃ st', Reaches M base (loadSegment M (f.vnode cached) buf st ph) st' ∧ Stored M f ph as' st st' := by
  have hr := range_of_loads hph
  have hlt := hr.lt
  have hstop := hseg.stop_le
  have hfile := hseg.filesz_le
  have hstart_le := hr.start_le
  have hle_stop := hr.le_stop
  obtain ⟨hvirt, hlen⟩ := segmentArgs_eq hph hseg.stop_le
  unfold archUserMaxVirt at hstop
  have hn : (segmentArgs ph).len / archPageGran = pages ph := by rw [hlen, pages]
  obtain ⟨st1, hmmap, hst1⟩ := vmmMmap_read (segmentArgs_anonymous ph) hr.start_page hown hplace
    (by omega)
  have hread1 : ∀ x, st1.read x = if start ph ≤ x ∧ x < stop ph then some 0 else st.read x := by
    intro x
    rw [hst1.read, hn, hr.pages, show start ph + (stop ph - start ph) = stop ph by omega]
    rfl
  have hmapped : ∀ k < ph.filesz, ∃ g, st1.pages (floorTo (ph.vaddr + k) archPageGran) = some g := by
    intro k hk
    have hzero := hread1 (ph.vaddr + k)
    rw [if_pos (by omega)] at hzero
    exact mapped_of_read hzero
  let bytes := fill buf (f.read ph.offset ph.filesz).2
  obtain ⟨st2, hcopy, hsame, hread2⟩ := vmmCopyTo_read bytes (by omega) hst1.own hmapped
  refine ⟨st2, ?_, hsame.as.trans hst1.as, hst1.own.samePages hsame, ?_, fun x => ?_⟩
  · have hguard : (guard (ph.filesz ≤ Pmm.pmmOrderToPagecount bufOrder * archPageGran) : Option Unit) =
        some () := if_pos hseg.filesz_max
    have hrun : loadSegment M (f.vnode cached) buf st ph =
        (within M st1).bind fun st1 => if M.block st1.store.taken then
          (vmmCopyTo M.toMachine st1 ph.vaddr bytes ph.filesz).map Prod.snd else none := by
      rw [loadSegment, mmap_eq hmmap]
      simp only [map_eq_bind, bind_eq_bind, bind_assoc, comp_apply, Option.bind_some,
        hguard, Option.pure_def]
      refine congrArg (Option.bind _) (funext fun st1 => ?_)
      cases M.block st1.store.taken <;> rfl
    rw [hrun]
    constructor
    · intro r hr
      obtain ⟨st', hst', hr⟩ := bind_eq_some_iff.mp hr
      obtain ⟨hfit, heq⟩ := ite_none_right_eq_some.mp hst'
      cases heq
      obtain ⟨-, hr⟩ := ite_none_right_eq_some.mp hr
      rw [hcopy] at hr
      cases hr
      exact ⟨rfl, hsame.taken ▸ hfit⟩
    · intro hfit hblock
      have hb := hblock _ hsame.taken.ge (hbase.trans (hst1.taken ▸ Nat.le_add_right ..))
      rw [within_of_le (hsame.taken ▸ hfit), Option.bind_some, if_pos hb, hcopy]
      rfl
  · rw [hsame.taken, hst1.taken, hn]
  · rw [hread2, hread1, imageByte]
    by_cases hin : ph.vaddr ≤ x ∧ x < ph.vaddr + ph.filesz
    · have hbyte : bytes (x - ph.vaddr) = f.bytes (ph.offset + (x - ph.vaddr)) := by
        have hin_file := hseg.in_file
        rw [show bytes _ = _ from fill_read f (by omega), File.byte?, if_pos (by omega), getD_some]
      rw [if_pos hin, if_pos hin, if_pos (by omega), hbyte]
    · rw [if_neg hin, if_neg hin]

theorem Loaded.append (h : Loaded M f base l st)
    (hapart : ∀ ph' ∈ l, stop ph' ≤ start ph ∨ stop ph ≤ start ph') {as' : AddrSpace}
    (htidy : TidySpace archUserMinVirt archUserMaxVirt as')
    (hperm : (as'.segments.map fun s => (s.base, s.len)).Perm
      ((start ph, stop ph - start ph) :: st.as.segments.map fun s => (s.base, s.len)))
    {st' : State} (hst' : Stored M f ph as' st st') : Loaded M f base (l ++ [ph]) st' where
  tidy := hst'.as ▸ htidy
  own := hst'.own
  segs := by
    rw [hst'.as, map_append]
    exact hperm.trans ((List.Perm.cons _ h.segs).trans (perm_append_singleton _ _).symm)
  taken := by
    rw [hst'.taken, h.taken, map_append, sum_append, map_cons, map_nil,
      sum_cons, sum_nil, Nat.add_zero, Nat.add_assoc]
  read := by
    intro ph' hph' x hlo hhi
    rw [hst'.read]
    rcases mem_append.mp hph' with hold | hnew
    · have hsides := hapart ph' hold
      rw [if_neg (by omega)]
      exact h.read ph' hold x hlo hhi
    · rw [mem_singleton.mp hnew] at hlo hhi ⊢
      rw [if_pos ⟨hlo, hhi⟩]

theorem loadSegment_loaded (cached : Bool) (buf : ℕ → UInt8) (h : Loaded M f base l st)
    (hph : Loads ph) (hseg : Segment f ph) (hloads : ∀ ph' ∈ l, Loads ph')
    (hapart : ∀ ph' ∈ l, stop ph' ≤ start ph ∨ stop ph ≤ start ph') :
    ∃ st', Reaches M base (loadSegment M (f.vnode cached) buf st ph) st' ∧
      Loaded M f base (l ++ [ph]) st' := by
  obtain ⟨as', hplace, htidy, hperm⟩ := h.place hph hseg.stop_le hloads hapart
  have hbase : base ≤ st.store.taken := h.taken ▸ Nat.le_add_right ..
  obtain ⟨st', hrun, hst'⟩ := loadSegment_stored cached buf h.own hbase hph hseg hplace
  exact ⟨st', hrun, h.append hapart htidy hperm hst'⟩

end

/-! ## All segments -/

theorem segments_succ (f : File) (n : ℕ) :
    segments f (n + 1) = segments f n ++ if Loads (phdr f n) then [phdr f n] else [] := by
  rw [segments, range_succ, map_append, filter_append, map_singleton, ← segments]
  by_cases hph : Loads (phdr f n) <;>
    simp only [filter_cons, filter_nil, hph, decide_true, decide_false, if_true, if_false,
      Bool.false_eq_true]

theorem segments_sublist (f : File) {n m : ℕ} (h : n ≤ m) :
    (segments f n).Sublist (segments f m) :=
  ((range_sublist.mpr h).map _).filter _

theorem loads_of_mem {f : File} {n : ℕ} {ph : Phdr} (h : ph ∈ segments f n) : Loads ph :=
  of_decide_eq_true (mem_filter.mp h).2

section

variable {M : Memory} {f : File} {st : State}

variable {base n : ℕ} {l : List Phdr} {table : ℕ → UInt8}

theorem loadRound_eq (junk : Junk) (file : Vnode) {ph : Phdr}
    (htable : Phdr.decode table (n * sizeofPhdr) = ph) :
    loadRound M junk file table st n =
      if Loads ph then loadSegment M file (junk.buf n) st ph else some st := by
  rw [loadRound, htable]

theorem loadRound_loaded (hexe : Executable f) (junk : Junk) (cached : Bool)
    (hn : n < (Ehdr.decode f.bytes).phnum) (htable : Phdr.decode table (n * sizeofPhdr) = phdr f n)
    (h : Loaded M f base (segments f n) st) :
    ∃ st', st.store.taken ≤ st'.store.taken ∧ (st.store.taken ≤ M.limit →
        Reaches M base (loadRound M junk (f.vnode cached) table st n) st') ∧
      Loaded M f base (segments f (n + 1)) st' := by
  rw [loadRound_eq junk _ htable, segments_succ]
  by_cases hph : Loads (phdr f n)
  · rw [if_pos hph, if_pos hph]
    have hsub := segments_sublist f (Nat.succ_le_of_lt hn)
    rw [segments_succ, if_pos hph] at hsub
    have hlast := mem_append_right (segments f n) (mem_singleton.mpr (rfl : phdr f n = _))
    have hpair := pairwise_append.mp (hexe.apart.sublist hsub)
    obtain ⟨st', hload, hst'⟩ := loadSegment_loaded cached (junk.buf n) h hph
      (hexe.segment _ (hsub.mem hlast)) (fun ph' h => loads_of_mem h)
      fun ph' h => hpair.2.2 ph' h _ (mem_singleton.mpr rfl)
    refine ⟨st', ?_, fun _ => hload, hst'⟩
    rw [hst'.taken, h.taken, map_append, sum_append]
    omega
  · rw [if_neg hph, if_neg hph, List.append_nil]
    exact ⟨st, le_rfl, reaches_some, h⟩

theorem foldlM_range_succ (step : State → ℕ → Option State) (n : ℕ) (st : State) :
    (List.range (n + 1)).foldlM step st = ((List.range n).foldlM step st).bind fun st => step st n := by
  rw [range_succ, foldlM_append]
  simp only [foldlM_cons, foldlM_nil, bind_eq_bind, Option.pure_def, bind_fun_some]

theorem rounds_loaded (hexe : Executable f) (hst : st.store.taken ≤ M.limit) (junk : Junk)
    (cached : Bool)
    (htable : ∀ i < (Ehdr.decode f.bytes).phnum, Phdr.decode table (i * sizeofPhdr) = phdr f i)
    (hn : n ≤ (Ehdr.decode f.bytes).phnum) :
    ∃ st', Reaches M st.store.taken
        ((List.range n).foldlM (loadRound M junk (f.vnode cached) table) (procNew st)) st' ∧
      Loaded M f st.store.taken (segments f n) st' := by
  induction n with
  | zero => exact ⟨procNew st, reaches_some hst, loaded_nil M f st⟩
  | succ n ih =>
    obtain ⟨st1, hrun, hst1⟩ := ih (Nat.le_of_succ_le hn)
    obtain ⟨st2, hle, hround, hst2⟩ := loadRound_loaded hexe junk cached hn (htable n hn) hst1
    rw [foldlM_range_succ]
    exact ⟨st2, hrun.bind hle hround, hst2⟩

/-! ## The stack -/

theorem sum_ranges (h : ∀ ph ∈ l, Loads ph) (n : ℕ) :
    (l.map fun ph => stop ph - start ph + n).sum =
      (l.map pages).sum * archPageGran + l.length * n := by
  induction l with
  | nil => simp only [map_nil, sum_nil, length_nil, Nat.zero_mul, Nat.add_zero]
  | cons ph l ih =>
    have hpages := (range_of_loads (h ph mem_cons_self)).pages
    rw [map_cons, map_cons, sum_cons, sum_cons, length_cons,
      ih fun ph' h' => h ph' (mem_cons_of_mem _ h'), Nat.add_mul, Nat.add_mul, hpages, Nat.one_mul]
    omega

theorem Loaded.hasGap (h : Loaded M f base l st) (hloads : ∀ ph ∈ l, Loads ph) (hlen : l.length ≤ 18)
    (hfit : st.store.taken ≤ M.limit) :
    HasGap Seg.base Seg.len stackArgs.len (st.as.limitHigh + 1) st.as.limitLow st.as.segments := by
  refine hasGap_of_sum ?_
  have hsum : (st.as.segments.map fun s => s.len + stackArgs.len).sum =
      (l.map fun ph => stop ph - start ph + stackArgs.len).sum := by
    have hperm := (h.segs.map fun r => r.2 + stackArgs.len).sum_eq
    rw [List.map_map, List.map_map] at hperm
    exact hperm
  have hlimit := M.limit_le
  have htaken := h.taken
  rw [hsum, sum_ranges hloads, h.tidy.1, h.tidy.2.1]
  unfold archPageGran gib at hlimit
  have hstack : stackArgs.len = 0x8000 := rfl
  rw [hstack]
  unfold archUserMinVirt archUserMaxVirt archPageGran
  omega

theorem Loaded.placeStack (h : Loaded M f base l st) (hloads : ∀ ph ∈ l, Loads ph)
    (hlen : l.length ≤ 18) (hfit : st.store.taken ≤ M.limit) :
    ∃ virt as', mmapPlace st.as stackArgs = some (some virt, as') ∧ virt % archPageGran = 0 ∧
      virt + stackArgs.len ≤ 2 ^ 47 ∧
      ∀ ph ∈ l, Apart virt stackArgs.len (start ph) (stop ph - start ph) := by
  have hplace := mmapPlace_of_not_fixed st.as (a := stackArgs) (by decide) (by decide)
  obtain ⟨virt, hvirt⟩ : ∃ virt, virt =
      if mmapRefused st.as stackArgs then vmmFindSpace st.as stackArgs.len else stackArgs.virt := ⟨_, rfl⟩
  simp only [← hvirt] at hplace
  let seg := mmapSegment stackArgs virt
  have hfits : Fits st.as stackArgs := by
    refine ⟨fun _ => Or.inr (h.hasGap hloads hlen hfit), fun _ => ?_⟩
    rw [h.tidy.2.1]
    decide
  have hstep : mmapStep st.as stackArgs = some (vmmInsertSeg st.as seg) := by
    rw [mmapStep, hplace]
    rfl
  have horder := (mmapStep_tidy (by decide) h.tidy hfits hstep).inOrder
  have hmem : seg ∈ (vmmInsertSeg st.as seg).segments :=
    (mem_insertByBase Seg.base).mpr (Or.inl rfl)
  refine ⟨virt, _, hplace, ?_, ?_, fun ph hph => ?_⟩
  · rw [hvirt]
    split_ifs
    · refine vmmFindSpace_aligned (by rw [h.tidy.1]; rfl) fun s hs => ?_
      obtain ⟨ph, hph, hbase, hslen⟩ := h.exists_phdr hs
      have hr := range_of_loads (hloads ph hph)
      have hlt := hr.lt
      rw [hbase, hslen, show start ph + (stop ph - start ph) = stop ph by omega]
      exact hr.stop_page
    · rfl
  · exact (horder.inside seg hmem).2
  · obtain ⟨s, hs, hbase, hslen⟩ := h.exists_seg hph
    have hpair := ((insertByBase_perm Seg.base seg st.as.segments).pairwise_iff
      (R := fun s t => Apart s.base s.len t.base t.len)
      fun {s t} hst x h1 h2 h3 => hst x h3.1 h3.2 ⟨h1, h2⟩).mp horder.disjoint
    have hapart := (pairwise_cons.mp hpair).1 s hs
    rw [hbase, hslen] at hapart
    exact hapart

theorem threadNew_loaded (junk : Junk) (h : Loaded M f base l st) (hloads : ∀ ph ∈ l, Loads ph)
    (hlen : l.length ≤ 18) (hfit : st.store.taken ≤ M.limit) :
    ∃ st', threadNew M junk st = within M st' ∧ ReadsBack f l st' ∧
      st'.store.taken = st.store.taken + 9 := by
  have hread0 : ∀ x, (allocKernelStack M junk st).read x = st.read x := fun x =>
    read_congr rfl fun g hg => setMem_of_ne st.store.alloc (h.own.used _ g _ hg le_rfl).symm _
  have hown0 : OwnFrames M.toMachine (allocKernelStack M junk st) :=
    ⟨h.own.inj, fun p g n hp hn => h.own.used p g n hp (Nat.le_of_succ_le hn)⟩
  obtain ⟨virt, as', hplace, haligned, hend, hapart⟩ := h.placeStack hloads hlen hfit
  have hanon : stackArgs.IsAnonymous := ⟨by decide, by decide, by decide, rfl⟩
  obtain ⟨st', hmmap, hst'⟩ := vmmMmap_read hanon haligned hown0 hplace hend
  refine ⟨st', ?_, fun ph hph x hlo hhi => ?_, ?_⟩
  · rw [threadNew, mmap_eq hmmap]
    cases within M st' <;> rfl
  · have hout : ¬(virt ≤ x ∧ x < virt + stackArgs.len / archPageGran * archPageGran) := by
      rintro ⟨hlow, hhigh⟩
      exact hapart ph hph x hlow hhigh ⟨hlo, by omega⟩
    rw [hst'.read, if_neg hout]
    exact (hread0 x).trans (h.read ph hph x hlo hhi)
  · rw [hst'.taken]
    rfl

end

/-! ## `exec_load` -/

section

variable {M : Memory} {f : File} {st : State}

theorem decode_header (h : sizeofEhdr ≤ f.size) :
    Ehdr.decode (fun i => (f.read 0 sizeofEhdr).2[i]?.getD 0) = Ehdr.decode f.bytes := by
  refine Ehdr.decode_congr fun k hk => ?_
  have hfill : fill (fun _ => 0) (f.read 0 sizeofEhdr).2 k = (f.byte? (0 + k)).getD 0 := fill_read f hk
  rw [File.byte?, if_pos (by omega), Nat.zero_add, getD_some] at hfill
  exact hfill

/-- The file is no executable for this machine. -/
def Rejected (f : File) : Prop :=
  f.size < sizeofEhdr ∨ elfCheckCompatibility (Ehdr.decode f.bytes) = false ∨
    (Ehdr.decode f.bytes).type ≠ etExec

/-- The table of headers as `exec_load` has it: where the file has no bytes, the heap has its own. -/
def tableOf (junk : Junk) (f : File) : ℕ → UInt8 :=
  fill junk.phTable (f.read (Ehdr.decode f.bytes).phoff
    ((Ehdr.decode f.bytes).phentsize * (Ehdr.decode f.bytes).phnum)).2

theorem header_read_iff (f : File) :
    ¬ ((f.read 0 sizeofEhdr).1 < 0 ∨ (f.read 0 sizeofEhdr).2.length ≠ sizeofEhdr) ↔ sizeofEhdr ≤ f.size := by
  have hstatus : ¬ (f.read 0 sizeofEhdr).1 < 0 := (by decide : ¬ eok < 0)
  rw [not_or, not_not, and_iff_right hstatus, File.read, length_map, length_range, Nat.sub_zero]
  omega

theorem execLoadAt_of_rejected (h : Rejected f) (junk : Junk) (proc : State) (cached : Bool) :
    execLoadAt M junk proc (f.vnode cached) = some none := by
  have hread : (f.vnode cached).read = f.read := rfl
  simp only [execLoadAt, hread]
  by_cases hsize : sizeofEhdr ≤ f.size
  · rw [if_neg ((header_read_iff f).mpr hsize), decode_header hsize]
    rcases h with h | h | h
    · exact absurd h (Nat.not_lt.mpr hsize)
    · rw [if_pos h]
      rfl
    · rw [if_pos h]
      split_ifs <;> rfl
  · rw [if_pos (not_not.mp fun hc => hsize ((header_read_iff f).mp hc))]
    rfl

theorem execLoadAt_of_not_rejected (h : ¬ Rejected f) (junk : Junk) (proc : State) (cached : Bool) :
    execLoadAt M junk proc (f.vnode cached) =
      if (Ehdr.decode f.bytes).phentsize * (Ehdr.decode f.bytes).phnum ≤ 1024 then
        (((List.range (Ehdr.decode f.bytes).phnum).foldlM
          (loadRound M junk (f.vnode cached) (tableOf junk f)) proc).bind (threadNew M junk)).map some
      else none := by
  unfold Rejected at h
  rw [not_or, not_or, Nat.not_lt, Bool.not_eq_false, not_not] at h
  obtain ⟨hsize, hcompatible, htype⟩ := h
  have hread : (f.vnode cached).read = f.read := rfl
  simp only [execLoadAt, hread]
  rw [if_neg ((header_read_iff f).mpr hsize), decode_header hsize, if_neg (by rw [hcompatible]; decide),
    if_neg (not_not.mpr htype)]
  split_ifs with htable
  · simp only [guard, if_pos htable, bind_eq_bind, Option.bind_some, Option.pure_def,
      map_eq_bind, bind_assoc]
    rfl
  · simp only [guard, if_neg htable, bind_eq_bind]
    rfl

theorem Executable.decode_phdr (hexe : Executable f) (junk : Junk) {i : ℕ}
    (hi : i < (Ehdr.decode f.bytes).phnum) :
    Phdr.decode (tableOf junk f) (i * sizeofPhdr) = phdr f i := by
  refine Phdr.decode_congr fun k hk => ?_
  have hin := hexe.table_in_file
  have hlt : k < sizeofPhdr * (Ehdr.decode f.bytes).phnum := by
    unfold sizeofPhdr at *
    omega
  rw [tableOf, hexe.phentsize, fill_read f hlt, File.byte?, if_pos (by omega), getD_some]

theorem Executable.not_rejected (hexe : Executable f) : ¬ Rejected f := by
  rintro (h | h | h)
  · exact absurd hexe.header (Nat.not_le.mpr h)
  · rw [hexe.compatible] at h
    cases h
  · exact h hexe.type

theorem Executable.length_segments (hexe : Executable f) :
    (segments f (Ehdr.decode f.bytes).phnum).length ≤ 18 := by
  have htable := hexe.table_le
  have hle : (segments f (Ehdr.decode f.bytes).phnum).length ≤ (Ehdr.decode f.bytes).phnum := by
    refine (length_filter_le _ _).trans ?_
    rw [length_map, length_range]
  unfold sizeofPhdr at htable
  omega

/-- Where `exec_load` returns a process for an executable, its address space reads the segments, with the
stack mapped; and it does so if there are frames enough, and a block for the buffer at each segment. -/
theorem exec_load_reads (M : Memory) (junk : Junk) (f : File) (cached : Bool) (st : State)
    (hexe : Executable f) (hst : st.store.taken ≤ M.limit) :
    (∀ r, execLoad M junk st (f.vnode cached) = some r →
      ∃ st', r = some st' ∧ ReadsBack f (segments f (Ehdr.decode f.bytes).phnum) st') ∧
      (st.store.taken + framesNeeded f ≤ M.limit →
        (∀ n, st.store.taken ≤ n → n + 9 ≤ st.store.taken + framesNeeded f → M.block n) →
        (execLoad M junk st (f.vnode cached)).isSome) := by
  obtain ⟨st1, hrun, hst1⟩ := rounds_loaded hexe hst junk cached
    (fun i hi => hexe.decode_phdr junk hi) le_rfl
  have hthread := threadNew_loaded junk hst1 (fun ph h => loads_of_mem h) hexe.length_segments
  have htable := hexe.table_le
  rw [← hexe.phentsize] at htable
  rw [execLoad, execLoadAt_of_not_rejected hexe.not_rejected, if_pos htable]
  constructor
  · intro r hr
    obtain ⟨st', hload, rfl⟩ := map_eq_some_iff.mp hr
    obtain ⟨st1', hrun1, hlast⟩ := bind_eq_some_iff.mp hload
    obtain ⟨rfl, hfit⟩ := hrun.eq_of_some _ hrun1
    obtain ⟨st2, hst2, hread, -⟩ := hthread hfit
    rw [hst2] at hlast
    cases (ite_none_right_eq_some.mp hlast).2
    exact ⟨st', rfl, hread⟩
  · intro hframes hblock
    have htaken := hst1.taken
    unfold framesNeeded at hframes hblock
    have hfit : st1.store.taken ≤ M.limit := by omega
    obtain ⟨st2, hst2, -, htaken2⟩ := hthread hfit
    rw [hrun.some_of hfit fun n hn hle => hblock n hle (by omega), Option.bind_some, hst2,
      within_of_le (by omega)]
    rfl

end

/-- A header of a segment. -/
def phdrBytes (offset vaddr filesz memsz : ℕ) : List UInt8 :=
  Bytes.ofNat 4 ptLoad ++ Bytes.ofNat 4 7 ++ Bytes.ofNat 8 offset ++ Bytes.ofNat 8 vaddr ++
    Bytes.ofNat 8 0 ++ Bytes.ofNat 8 filesz ++ Bytes.ofNat 8 memsz ++ Bytes.ofNat 8 0x1000

/-- An executable with two segments, of 4 bytes in the file and 0x1800 in memory at 0x400010, and of 2 bytes
in the file and 0x20 in memory at 0x402FF0. -/
def sampleBytes : List UInt8 :=
  [0x7F, 0x45, 0x4C, 0x46, 2, 1, 1] ++ List.replicate 9 0 ++ Bytes.ofNat 2 etExec ++
    Bytes.ofNat 2 emX8664 ++ Bytes.ofNat 4 1 ++ Bytes.ofNat 8 0x400010 ++ Bytes.ofNat 8 sizeofEhdr ++
    Bytes.ofNat 8 0 ++ Bytes.ofNat 4 0 ++ Bytes.ofNat 2 sizeofEhdr ++ Bytes.ofNat 2 sizeofPhdr ++
    Bytes.ofNat 2 2 ++ List.replicate 6 0 ++ phdrBytes 176 0x400010 4 0x1800 ++
    phdrBytes 180 0x402FF0 2 0x20 ++ [0xF3, 0x90, 0xEB, 0xFC, 1, 2]

def sampleFile : File := ⟨182, fun k => sampleBytes[k]?.getD 0⟩

theorem sampleFile_executable : Executable sampleFile where
  header := by decide
  compatible := by decide +kernel
  type := by decide +kernel
  phentsize := by decide +kernel
  table_le := by decide +kernel
  table_in_file := by decide +kernel
  segment := by decide +kernel
  apart := by decide +kernel

def sampleMemory : Memory where
  vnodes := fun _ => sampleFile.vnode false
  frames := fun n => n * archPageGran
  injective := mul_archPageGran_injective
  aligned := mul_archPageGran_mod
  hhdm := archKernelMinVirt
  virtualBase := 0xFFFFFFFF80000000
  limit := 4096
  block n := n + 1024 ≤ 4096
  block_le _ h := of_decide_eq_true h
  hhdm_le := le_rfl
  image := by decide
  window := by
    intro n hn
    unfold archKernelMinVirt archPageGran
    omega

def sampleJunk : Junk := ⟨fun _ => 0xAA, fun _ _ => 0xAA, fun _ => 0xAA⟩

def sampleState : State :=
  ⟨vmmNewAddrSpace 0 archUserMaxVirt, fun _ => none, ⟨fun _ _ => 0xAA, fun _ _ => none, 300⟩, fun _ _ => 0⟩

theorem exec_load_reads_sample :
    ∃ st', execLoad sampleMemory sampleJunk sampleState (sampleFile.vnode false) = some (some st') ∧
      (segments sampleFile 2).length = 2 ∧ ReadsBack sampleFile (segments sampleFile 2) st' := by
  have hneeded : framesNeeded sampleFile = 13 := by decide +kernel
  have htaken : sampleState.store.taken = 300 := rfl
  obtain ⟨hreads, htotal⟩ := exec_load_reads sampleMemory sampleJunk sampleFile false sampleState
    sampleFile_executable (by decide)
  rw [hneeded, htaken] at htotal
  have hblock : ∀ n, 300 ≤ n → n + 9 ≤ 300 + 13 → sampleMemory.block n := fun n _ hn => by
    simp only [sampleMemory, decide_eq_true_eq]
    omega
  obtain ⟨r, hr⟩ := isSome_iff_exists.mp (htotal (show 300 + 13 ≤ 4096 by decide) hblock)
  obtain ⟨st', rfl, hread⟩ := hreads r hr
  have hnum : (Ehdr.decode sampleFile.bytes).phnum = 2 := by decide +kernel
  exact ⟨st', hr, by decide +kernel, hnum ▸ hread⟩

end LykOS.Exec
