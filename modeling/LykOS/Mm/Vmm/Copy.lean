import LykOS.Mm.Vmm.Demand
import LykOS.Mm.Vmm.Faults

/-!
# What an address space reads

Where each mapped page has a frame of its own, an address space is a partial function from addresses to
bytes, `State.read`, and the functions of `mm/vmm.c` act on it as on a memory: an anonymous mapping that is
populated clears its range (`populate_read`), and `vmm_copy_to` writes the bytes of its source, page by page
(`vmmCopyTo_read`). Pages of private anonymous segments that are not mapped yet are faulted in on the way;
this fails where the handler does not find the segment, as it ends with the last address there is
(`copy_to_zero_out_iff`).
-/

namespace LykOS.Vmm

open Vfs X8664 Function

def State.setFrame (st : State) (f : ℕ) (bytes : ℕ → UInt8) : State :=
  { st with store := st.store.setMem f bytes }

/-- The frame of an address in `vmm_copy_to`, which calls the fault handler if there is none and panics
if there is none then. -/
def touch (M : Machine) (st : State) (addr : ℕ) : Option (ℕ × State) :=
  match st.pages (floorTo addr archPageGran) with
  | some frame => some (frame, st)
  | none => do
    let (_, st) ← vmmPagefaultHandler M st addr
    let frame ← st.pages (floorTo addr archPageGran)
    return (frame, st)

/-- The loop of `vmm_copy_to`. -/
def copyLoop (M : Machine) (destAddr : ℕ) (src : ℕ → UInt8) (count : ℕ) :
    ℕ → ℕ → State → Option (ℕ × State)
  | 0, _, _ => none
  | n + 1, i, st =>
    if i < count then do
      let offset := u64 (destAddr + i) % archPageGran
      let (frame, st) ← touch M st (u64 (destAddr + i))
      let len := min (count - i) (archPageGran - offset)
      let bytes := memcpy (st.store.mem frame) offset src i len
      copyLoop M destAddr src count n (i + len) (st.setFrame frame bytes)
    else some (i, st)

def vmmCopyTo (M : Machine) (st : State) (destAddr : ℕ) (src : ℕ → UInt8) (count : ℕ) :
    Option (ℕ × State) :=
  copyLoop M destAddr src count (count + 1) 0 st

/-- `memset(buffer + start, v, n)`. -/
def memset (buffer : ℕ → UInt8) (start : ℕ) (v : UInt8) (n : ℕ) : ℕ → UInt8 := fun k =>
  if start ≤ k ∧ k < start + n then v else buffer k

/-- The loop of `vmm_zero_out`. -/
def zeroLoop (M : Machine) (destAddr count : ℕ) : ℕ → ℕ → State → Option (ℕ × State)
  | 0, _, _ => none
  | n + 1, i, st =>
    if i < count then do
      let offset := u64 (destAddr + i) % archPageGran
      let (frame, st) ← touch M st (u64 (destAddr + i))
      let len := min (count - i) (archPageGran - offset)
      let bytes := memset (st.store.mem frame) offset 0 len
      zeroLoop M destAddr count n (i + len) (st.setFrame frame bytes)
    else some (i, st)

def vmmZeroOut (M : Machine) (st : State) (destAddr count : ℕ) : Option (ℕ × State) :=
  zeroLoop M destAddr count (count + 1) 0 st

/-! ## Frames -/

/-- Each mapped page has a frame of its own, which is not free. -/
structure OwnFrames (M : Machine) (st : State) : Prop where
  inj : ∀ p q f, st.pages p = some f → st.pages q = some f → p = q
  used : ∀ p f n, st.pages p = some f → st.store.taken ≤ n → M.frames n ≠ f

section

variable {M : Machine} {st : State}

theorem mapped_of_read {x : ℕ} {b : UInt8} (h : st.read x = some b) :
    ∃ f, st.pages (floorTo x archPageGran) = some f := by
  obtain ⟨f, hf, -⟩ := Option.map_eq_some_iff.mp h
  exact ⟨f, hf⟩

theorem read_congr {st' : State} {x : ℕ}
    (hpages : st'.pages (floorTo x archPageGran) = st.pages (floorTo x archPageGran))
    (hmem : ∀ g, st.pages (floorTo x archPageGran) = some g → st'.store.mem g = st.store.mem g) :
    st'.read x = st.read x := by
  cases hg : st.pages (floorTo x archPageGran) with
  | none => simp only [State.read, State.byte?, hpages, hg, Option.map_none]
  | some g => rw [State.read_of_mapped hg, State.read_of_mapped (hpages.trans hg), hmem g hg]

theorem OwnFrames.read_setFrame (h : OwnFrames M st) {p f : ℕ} (hp : st.pages p = some f)
    (bytes : ℕ → UInt8) (x : ℕ) :
    (st.setFrame f bytes).read x =
      if floorTo x archPageGran = p then some (bytes (x % archPageGran)) else st.read x := by
  split_ifs with hx
  · subst hx
    have hpage : (st.setFrame f bytes).pages (floorTo x archPageGran) = some f := hp
    rw [State.read_of_mapped hpage, State.setFrame, setMem_self]
  · refine read_congr rfl fun g hg => setMem_of_ne st.store ?_ bytes
    rintro rfl
    exact hx (h.inj _ _ _ hg hp)

/-- The next frame, cleared, at the page `virt`. -/
def State.clearPage (M : Machine) (st : State) (virt : ℕ) : State :=
  { st with
    pages := Function.update st.pages virt (some (M.frames st.store.taken))
    store := st.store.alloc.setMem (M.frames st.store.taken) fun _ => 0 }

theorem installPrivate_clear {flags virt offset : ℕ} {vnode : Option ℕ}
    (hanon : hasFlag flags vmmMapAnon = true) (hv : CanonicalPage virt) :
    installPrivate M st flags vnode virt offset = some (st.clearPage M virt) := by
  simp only [installPrivate, State.map_eq hv (M.aligned _), Option.bind_eq_bind, Option.bind_some,
    if_pos hanon]
  rfl

theorem OwnFrames.clearPage (h : OwnFrames M st) (virt : ℕ) : OwnFrames M (st.clearPage M virt) := by
  have hnew : ∀ p f, p ≠ virt → (st.clearPage M virt).pages p = some f → st.pages p = some f := by
    intro p f hp hpage
    exact (update_of_ne hp _ _).symm.trans hpage
  have hself : ∀ f, (st.clearPage M virt).pages virt = some f → M.frames st.store.taken = f := by
    intro f hpage
    exact Option.some.inj ((update_self virt _ _).symm.trans hpage)
  constructor
  · intro p q f hp hq
    by_cases hpv : p = virt <;> by_cases hqv : q = virt
    · rw [hpv, hqv]
    · subst hpv
      exact absurd (hself f hp) (h.used q f _ (hnew q f hqv hq) le_rfl)
    · subst hqv
      exact absurd (hself f hq) (h.used p f _ (hnew p f hpv hp) le_rfl)
    · exact h.inj p q f (hnew p f hpv hp) (hnew q f hqv hq)
  · intro p f n hp hn
    have hlt : st.store.taken < n := hn
    by_cases hpv : p = virt
    · subst hpv
      rw [← hself f hp]
      exact fun heq => absurd (M.injective heq) (Nat.ne_of_gt hlt)
    · exact h.used p f n (hnew p f hpv hp) hlt.le

theorem OwnFrames.read_clearPage (h : OwnFrames M st) (virt x : ℕ) :
    (st.clearPage M virt).read x =
      if floorTo x archPageGran = virt then some 0 else st.read x := by
  by_cases hx : floorTo x archPageGran = virt
  · have hpage : (st.clearPage M virt).pages (floorTo x archPageGran) =
        some (M.frames st.store.taken) := by
      rw [hx]
      exact update_self _ _ _
    rw [if_pos hx, State.read_of_mapped hpage, State.clearPage, setMem_self]
  · rw [if_neg hx]
    refine read_congr (update_of_ne hx _ _) fun g hg => ?_
    exact setMem_of_ne st.store.alloc (h.used _ g _ hg le_rfl).symm _

end

/-! ## Anonymous mappings -/

/-- From `st` to `st'`, `n` pages from `virt` on have been cleared. -/
structure Cleared (M : Machine) (virt n : ℕ) (st st' : State) : Prop where
  as : st'.as = st.as
  taken : st'.store.taken = st.store.taken + n
  own : OwnFrames M st'
  read : ∀ x, st'.read x =
    if virt ≤ x ∧ x < virt + n * archPageGran then some 0 else st.read x

theorem floorTo_eq_iff {x p : ℕ} (hp : p % archPageGran = 0) :
    floorTo x archPageGran = p ↔ p ≤ x ∧ x < p + archPageGran := by
  unfold floorTo archPageGran at *
  omega

/-- The request is for a private anonymous mapping that is populated. -/
structure MmapArgs.IsAnonymous (a : MmapArgs) : Prop where
  isPrivate : hasFlag a.flags vmmMapPrivate = true
  anon : hasFlag a.flags vmmMapAnon = true
  populate : hasFlag a.flags vmmMapPopulate = true
  vnode : a.vnode = none

section

variable {M : Machine} {a : MmapArgs} {virt : ℕ}

theorem populate_read (ha : a.IsAnonymous) (hvirt : virt % archPageGran = 0) {st : State}
    (h : OwnFrames M st) {n : ℕ} (hend : virt + n * archPageGran ≤ 2 ^ 47) :
    ∃ st', populate M a virt st n = some st' ∧ Cleared M virt n st st' := by
  unfold populate
  induction n with
  | zero =>
    refine ⟨st, rfl, rfl, rfl, h, fun x => ?_⟩
    rw [if_neg (by omega)]
  | succ n ih =>
    have hn : (n + 1) * archPageGran = n * archPageGran + archPageGran := Nat.succ_mul n _
    obtain ⟨st1, hrun, hst1⟩ := ih (by omega)
    have hpage : CanonicalPage (virt + n * archPageGran) := by
      refine ⟨Or.inl ?_, ?_⟩ <;> unfold archPageGran at * <;> omega
    have hword : u64 (virt + n * archPageGran) = virt + n * archPageGran :=
      u64_of_lt (by unfold archPageGran at *; omega)
    have hround : populatePage M a virt st1 (n * archPageGran) =
        some (st1.clearPage M (virt + n * archPageGran)) := by
      rw [populatePage, if_pos ha.isPrivate, hword, ha.vnode]
      exact installPrivate_clear ha.anon hpage
    refine ⟨st1.clearPage M (virt + n * archPageGran), ?_, hst1.as, ?_, hst1.own.clearPage _, ?_⟩
    · rw [List.range_succ, List.foldlM_append, hrun]
      simp only [Option.bind_eq_bind, Option.bind_some, List.foldlM_cons, List.foldlM_nil, hround]
      rfl
    · exact congrArg (· + 1) hst1.taken
    · intro x
      rw [hst1.own.read_clearPage, hst1.read]
      have hfloor := floorTo_eq_iff (x := x) hpage.2
      split_ifs <;> first | rfl | omega

theorem vmmMmap_read (ha : a.IsAnonymous) (hvirt : virt % archPageGran = 0) {st : State}
    (h : OwnFrames M st) {as' : AddrSpace} (hplace : mmapPlace st.as a = some (some virt, as'))
    (hend : virt + a.len ≤ 2 ^ 47) :
    ∃ st', vmmMmap M st a = some (some virt, st') ∧
      Cleared M virt (a.len / archPageGran) { st with as := as' } st' := by
  have hown : OwnFrames M { st with as := as' } := ⟨h.inj, h.used⟩
  have hle : a.len / archPageGran * archPageGran ≤ a.len := Nat.div_mul_le_self _ _
  obtain ⟨st', hrun, hst'⟩ := populate_read ha hvirt hown (n := a.len / archPageGran) (by omega)
  refine ⟨st', ?_, hst'⟩
  simp only [vmmMmap, hplace, Option.bind_eq_bind, Option.bind_some, if_pos ha.populate, hrun]
  rfl

end

/-! ## `vmm_copy_to` -/

/-- From `st` to `st'` only bytes of mapped pages have changed. -/
structure SamePages (st st' : State) : Prop where
  as : st'.as = st.as
  pages : st'.pages = st.pages
  taken : st'.store.taken = st.store.taken

section

variable {M : Machine} {destAddr count : ℕ} {src : ℕ → UInt8}

theorem OwnFrames.read_chunk {st : State} (h : OwnFrames M st) {addr i len f : ℕ}
    (hf : st.pages (floorTo addr archPageGran) = some f)
    (hlen : len ≤ archPageGran - addr % archPageGran) (x : ℕ) :
    (st.setFrame f (memcpy (st.store.mem f) (addr % archPageGran) src i len)).read x =
      if addr ≤ x ∧ x < addr + len then some (src (i + (x - addr))) else st.read x := by
  rw [h.read_setFrame hf]
  by_cases hx : floorTo x archPageGran = floorTo addr archPageGran
  · have hread : st.read x = some (st.store.mem f (x % archPageGran)) :=
      State.read_of_mapped (by rw [hx, hf])
    have hsame : addr % archPageGran ≤ x % archPageGran ∧
        x % archPageGran < addr % archPageGran + len ↔ addr ≤ x ∧ x < addr + len := by
      unfold floorTo archPageGran at *
      omega
    have hdist : addr ≤ x → x % archPageGran - addr % archPageGran = x - addr := by
      unfold floorTo archPageGran at *
      omega
    rw [if_pos hx, memcpy, hread]
    by_cases hin : addr ≤ x ∧ x < addr + len
    · rw [if_pos (hsame.mpr hin), if_pos hin, hdist hin.1]
    · rw [if_neg (fun hc => hin (hsame.mp hc)), if_neg hin]
  · have hout : ¬(addr ≤ x ∧ x < addr + len) := by
      unfold floorTo archPageGran at *
      omega
    rw [if_neg hx, if_neg hout]

def chunk (destAddr count i : ℕ) : ℕ :=
  min (count - i) (archPageGran - (destAddr + i) % archPageGran)

theorem chunk_bounds (destAddr : ℕ) {i : ℕ} (hi : i < count) :
    0 < chunk destAddr count i ∧ i + chunk destAddr count i ≤ count ∧
      chunk destAddr count i ≤ archPageGran - (destAddr + i) % archPageGran := by
  have hmod := Nat.mod_lt (destAddr + i) (show 0 < archPageGran by decide)
  unfold chunk
  omega

/-- The state after a round that copies to the frame `f`. -/
def State.copyChunk (st : State) (f addr : ℕ) (src : ℕ → UInt8) (i len : ℕ) : State :=
  st.setFrame f (memcpy (st.store.mem f) (addr % archPageGran) src i len)

theorem copyLoop_succ (hend : destAddr + count ≤ 2 ^ 64) {n i : ℕ} (hi : i < count) (st : State) :
    copyLoop M destAddr src count (n + 1) i st = (touch M st (destAddr + i)).bind fun r =>
      copyLoop M destAddr src count n (i + chunk destAddr count i)
        (r.2.copyChunk r.1 (destAddr + i) src i (chunk destAddr count i)) := by
  rw [copyLoop, if_pos hi, u64_of_lt (by omega)]
  rfl

theorem copyLoop_rule (hend : destAddr + count ≤ 2 ^ 64) {I : ℕ → State → Prop}
    (hstep : ∀ i st, i < count → I i st → ∃ f st1, touch M st (destAddr + i) = some (f, st1) ∧
      I (i + chunk destAddr count i)
        (st1.copyChunk f (destAddr + i) src i (chunk destAddr count i)))
    {n i : ℕ} (hi : i ≤ count) (hn : count - i < n) {st : State} (h : I i st) :
    ∃ st', copyLoop M destAddr src count n i st = some (count, st') ∧ I count st' := by
  induction n generalizing i st with
  | zero => exact absurd hn (Nat.not_lt_zero _)
  | succ n ih =>
    by_cases hlt : i < count
    · obtain ⟨f, st1, htouch, h1⟩ := hstep i st hlt h
      obtain ⟨hpos, hle, -⟩ := chunk_bounds destAddr hlt
      rw [copyLoop_succ hend hlt, htouch, Option.bind_some]
      exact ih hle (by omega) h1
    · have heq : i = count := Nat.le_antisymm hi (Nat.not_lt.mp hlt)
      subst heq
      exact ⟨st, by rw [copyLoop, if_neg hlt], h⟩

theorem zeroLoop_eq (n i : ℕ) (st : State) :
    zeroLoop M destAddr count n i st = copyLoop M destAddr (fun _ => 0) count n i st := by
  induction n generalizing i st with
  | zero => rfl
  | succ n ih =>
    simp only [zeroLoop, copyLoop, ih]
    rfl

theorem copied_append (i len x : ℕ) (b : Option UInt8) :
    (if destAddr + i ≤ x ∧ x < destAddr + i + len then some (src (i + (x - (destAddr + i))))
      else if destAddr ≤ x ∧ x < destAddr + i then some (src (x - destAddr)) else b) =
      if destAddr ≤ x ∧ x < destAddr + (i + len) then some (src (x - destAddr)) else b := by
  by_cases h1 : destAddr + i ≤ x ∧ x < destAddr + i + len
  · rw [if_pos h1, if_pos (by omega), show i + (x - (destAddr + i)) = x - destAddr by omega]
  · rw [if_neg h1]
    exact if_congr (by omega) rfl rfl

theorem vmmCopyTo_read (src : ℕ → UInt8) (hend : destAddr + count ≤ 2 ^ 64) {st : State}
    (h : OwnFrames M st)
    (hmapped : ∀ k < count, ∃ f, st.pages (floorTo (destAddr + k) archPageGran) = some f) :
    ∃ st', vmmCopyTo M st destAddr src count = some (count, st') ∧ SamePages st st' ∧
      ∀ x, st'.read x =
        if destAddr ≤ x ∧ x < destAddr + count then some (src (x - destAddr)) else st.read x := by
  let I : ℕ → State → Prop := fun i st' => SamePages st st' ∧ OwnFrames M st' ∧ ∀ x, st'.read x =
    if destAddr ≤ x ∧ x < destAddr + i then some (src (x - destAddr)) else st.read x
  have hstep : ∀ i st1, i < count → I i st1 → ∃ f st2, touch M st1 (destAddr + i) = some (f, st2) ∧
      I (i + chunk destAddr count i)
        (st2.copyChunk f (destAddr + i) src i (chunk destAddr count i)) := by
    rintro i st1 hi ⟨hsame, hown, hread⟩
    obtain ⟨f, hf⟩ := hmapped i hi
    rw [← hsame.pages] at hf
    obtain ⟨-, -, hpage⟩ := chunk_bounds destAddr hi
    refine ⟨f, st1, by rw [touch, hf], ⟨hsame.as, hsame.pages, hsame.taken⟩, ⟨hown.inj, hown.used⟩,
      fun x => ?_⟩
    rw [State.copyChunk, hown.read_chunk hf hpage, hread, copied_append]
  have hstart : I 0 st := ⟨⟨rfl, rfl, rfl⟩, h, fun x => (if_neg (by omega)).symm⟩
  obtain ⟨st', hrun, hsame, -, hread⟩ :=
    copyLoop_rule hend hstep (Nat.zero_le count) (Nat.lt_succ_self _) hstart
  exact ⟨st', hrun, hsame, hread⟩

theorem OwnFrames.samePages {st st' : State} (h : OwnFrames M st) (hsame : SamePages st st') :
    OwnFrames M st' := by
  constructor
  · intro p q f
    rw [hsame.pages]
    exact h.inj p q f
  · intro p f n
    rw [hsame.pages, hsame.taken]
    exact h.used p f n

end

/-! ## Faulting pages in -/

/-- A private anonymous segment. -/
def Seg.IsAnonymous (seg : Seg) : Prop :=
  seg.type = .vnode ∧ hasFlag seg.flags vmmMapPrivate = true ∧ hasFlag seg.flags vmmMapAnon = true

instance (seg : Seg) : Decidable seg.IsAnonymous := inferInstanceAs (Decidable (_ ∧ _))

/-- The address at which the range first touches the page of `x`. -/
def firstTouch (destAddr x : ℕ) : ℕ := max destAddr (floorTo x archPageGran)

/-- The page of `x` has an address of the range in it. -/
def Touched (destAddr count x : ℕ) : Prop :=
  0 < count ∧ floorTo destAddr archPageGran ≤ x ∧ floorTo x archPageGran < destAddr + count

instance (destAddr count x : ℕ) : Decidable (Touched destAddr count x) :=
  inferInstanceAs (Decidable (_ ∧ _))

/-- From `st` to `st'` the bytes `src` have been written to the range. Pages of it that were not mapped
are, and are 0 elsewhere; all else is as before. -/
structure Copied (M : Machine) (destAddr count : ℕ) (src : ℕ → UInt8) (st st' : State) : Prop where
  as : st'.as = st.as
  own : OwnFrames M st'
  pages : ∀ p f, st.pages p = some f → st'.pages p = some f
  read : ∀ x, st'.read x =
    if destAddr ≤ x ∧ x < destAddr + count then some (src (x - destAddr))
    else (st.read x).or (if Touched destAddr count x then some 0 else none)

section

variable {M : Machine} {st : State} {addr destAddr count : ℕ} {src : ℕ → UInt8}

theorem touch_of_unmapped (h : st.pages (floorTo addr archPageGran) = none)
    (hseg : vmmAddrToSeg st.as addr = none) : touch M st addr = none := by
  rw [touch, h, vmmPagefaultHandler, hseg]
  simp only [Option.bind_eq_bind, Option.bind_some, h, Option.bind_none]

theorem touch_anon {seg : Seg} (hfound : vmmAddrToSeg st.as addr = some seg) (hanon : seg.IsAnonymous)
    (hcanon : CanonicalPage (floorTo addr archPageGran))
    (hp : st.pages (floorTo addr archPageGran) = none) :
    touch M st addr = some (M.frames st.store.taken, st.clearPage M (floorTo addr archPageGran)) := by
  obtain ⟨htype, hprivate, hanon⟩ := hanon
  have hinst : installPrivate M st seg.flags seg.vnode (floorTo addr archPageGran)
      (u64 (addr - seg.base + seg.offset)) = some (st.clearPage M (floorTo addr archPageGran)) :=
    installPrivate_clear hanon hcanon
  have hpage : (st.clearPage M (floorTo addr archPageGran)).pages (floorTo addr archPageGran) =
      some (M.frames st.store.taken) := update_self _ _ _
  have hguard : (guard (seg.type ≠ .kernel) : Option Unit) = some () := by
    rw [htype]
    rfl
  rw [touch, hp]
  unfold vmmPagefaultHandler
  rw [hfound]
  simp only [hguard, hprivate, if_true, hinst, Option.bind_eq_bind, Option.bind_some, Option.pure_def, hpage]

/-- The page of `addr` is mapped, or the handler finds a private anonymous segment for it. -/
def Touchable (st : State) (addr : ℕ) : Prop :=
  (∃ f, st.pages (floorTo addr archPageGran) = some f) ∨
    ∃ seg, vmmAddrToSeg st.as addr = some seg ∧ seg.IsAnonymous

/-- If the page of `addr` is not mapped, it is canonical, and the handler finds no segment for it that is not
private and anonymous. -/
structure NoOther (st : State) (addr : ℕ) : Prop where
  canonical : st.pages (floorTo addr archPageGran) = none → CanonicalPage (floorTo addr archPageGran)
  anon : st.pages (floorTo addr archPageGran) = none →
    ∀ seg, vmmAddrToSeg st.as addr = some seg → seg.IsAnonymous

theorem NoOther.mono {st' : State} (h : NoOther st addr) (has : st'.as = st.as)
    (hpages : ∀ p f, st.pages p = some f → st'.pages p = some f) : NoOther st' addr := by
  have hnone : st'.pages (floorTo addr archPageGran) = none →
      st.pages (floorTo addr archPageGran) = none := fun hp' => by
    cases hp : st.pages (floorTo addr archPageGran) with
    | none => rfl
    | some f => cases hp'.symm.trans (hpages _ f hp)
  exact ⟨fun hp => h.canonical (hnone hp), fun hp => has ▸ h.anon (hnone hp)⟩

/-- From `st` to `st1` the page `p` has been touched: it is mapped to `f`, and is 0 if it was not
mapped before. -/
structure Faulted (M : Machine) (p f : ℕ) (st st1 : State) : Prop where
  as : st1.as = st.as
  own : OwnFrames M st1
  page : st1.pages p = some f
  other : ∀ q, q ≠ p → st1.pages q = st.pages q
  mono : ∀ q g, st.pages q = some g → st1.pages q = some g
  read : ∀ x, st1.read x =
    (st.read x).or (if floorTo x archPageGran = p then some 0 else none)

theorem touch_faulted (h : OwnFrames M st) (hno : NoOther st addr) (hready : Touchable st addr) :
    ∃ f st1, touch M st addr = some (f, st1) ∧ Faulted M (floorTo addr archPageGran) f st st1 := by
  cases hp : st.pages (floorTo addr archPageGran) with
  | some f =>
    refine ⟨f, st, by rw [touch, hp], rfl, h, hp, fun _ _ => rfl, fun _ _ hg => hg, fun x => ?_⟩
    by_cases hx : floorTo x archPageGran = floorTo addr archPageGran
    · have hread : st.read x = some (st.store.mem f (x % archPageGran)) :=
        State.read_of_mapped (by rw [hx, hp])
      rw [hread, Option.some_or]
    · rw [if_neg hx, Option.or_none]
  | none =>
    obtain ⟨seg, hseg, hanon⟩ := hready.resolve_left fun ⟨f, hf⟩ => by
      rw [hp] at hf
      cases hf
    have hother : ∀ q, q ≠ floorTo addr archPageGran →
        (st.clearPage M (floorTo addr archPageGran)).pages q = st.pages q := fun q hq =>
      update_of_ne hq _ _
    refine ⟨_, _, touch_anon hseg hanon (hno.canonical hp) hp, rfl, h.clearPage _,
      update_self _ _ _, hother, fun q g hg => ?_, fun x => ?_⟩
    · refine (hother q ?_).trans hg
      rintro rfl
      rw [hp] at hg
      cases hg
    · rw [h.read_clearPage]
      by_cases hx : floorTo x archPageGran = floorTo addr archPageGran
      · have hnone : st.read x = none := by
          rw [State.read, State.byte?, hx, hp, Option.map_none]
        rw [if_pos hx, if_pos hx, hnone, Option.none_or]
      · rw [if_neg hx, if_neg hx, Option.or_none]

theorem touchable_of_touch (hno : NoOther st addr) (htouch : touch M st addr ≠ none) :
    Touchable st addr := by
  cases hp : st.pages (floorTo addr archPageGran) with
  | some f => exact Or.inl ⟨f, hp⟩
  | none =>
    cases hseg : vmmAddrToSeg st.as addr with
    | some seg => exact Or.inr ⟨seg, hseg, hno.anon hp seg hseg⟩
    | none => exact absurd (touch_of_unmapped hp hseg) htouch

/-- A round of the loops begins at `i`. -/
def Begins (destAddr i : ℕ) : Prop := i = 0 ∨ (destAddr + i) % archPageGran = 0

theorem Begins.firstTouch {i : ℕ} (h : Begins destAddr i) :
    Vmm.firstTouch destAddr (destAddr + i) = destAddr + i := by
  unfold Begins at h
  unfold Vmm.firstTouch floorTo archPageGran at *
  omega

theorem floorTo_firstTouch (destAddr k : ℕ) :
    floorTo (firstTouch destAddr (destAddr + k)) archPageGran = floorTo (destAddr + k) archPageGran := by
  unfold firstTouch floorTo archPageGran
  omega

theorem begins_chunk {i : ℕ} (h : i + chunk destAddr count i < count) :
    Begins destAddr (i + chunk destAddr count i) := by
  unfold Begins
  unfold chunk archPageGran at *
  omega

theorem touched_append {i len : ℕ} (hpos : 0 < len)
    (hlen : len ≤ archPageGran - (destAddr + i) % archPageGran) (x : ℕ) :
    Touched destAddr (i + len) x ↔
      Touched destAddr i x ∨ floorTo x archPageGran = floorTo (destAddr + i) archPageGran := by
  unfold Touched floorTo archPageGran at *
  omega

theorem vmmCopyTo_copied (src : ℕ → UInt8) (h : OwnFrames M st) (hend : destAddr + count ≤ 2 ^ 64)
    (hno : ∀ k < count, NoOther st (firstTouch destAddr (destAddr + k)))
    (hready : ∀ k < count, Touchable st (firstTouch destAddr (destAddr + k))) :
    ∃ st', vmmCopyTo M st destAddr src count = some (count, st') ∧
      Copied M destAddr count src st st' := by
  let I : ℕ → State → Prop := fun i st' =>
    (i < count → Begins destAddr i) ∧ Copied M destAddr i src st st'
  have hstart : I 0 st := by
    refine ⟨fun _ => .inl rfl, rfl, h, fun _ _ hf => hf, fun x => ?_⟩
    rw [if_neg (by omega), if_neg fun ht => absurd ht.1 (Nat.lt_irrefl 0), Option.or_none]
  suffices hstep : ∀ i st1, i < count → I i st1 → ∃ f st2, touch M st1 (destAddr + i) = some (f, st2) ∧
      I (i + chunk destAddr count i)
        (st2.copyChunk f (destAddr + i) src i (chunk destAddr count i)) by
    obtain ⟨st', hrun, -, hst'⟩ :=
      copyLoop_rule hend hstep (Nat.zero_le count) (Nat.lt_succ_self _) hstart
    exact ⟨st', hrun, hst'⟩
  rintro i st1 hi ⟨hbegins, hst1⟩
  have hfirst := (hbegins hi).firstTouch
  have hno1 := (hno i hi).mono hst1.as hst1.pages
  have hready1 : Touchable st1 (firstTouch destAddr (destAddr + i)) :=
    (hready i hi).imp (fun ⟨f, hf⟩ => ⟨f, hst1.pages _ f hf⟩) fun hseg => hst1.as.symm ▸ hseg
  rw [hfirst] at hno1 hready1
  obtain ⟨f, st2, htouch, hst2⟩ := touch_faulted hst1.own hno1 hready1
  obtain ⟨hpos, -, hpage⟩ := chunk_bounds destAddr hi
  refine ⟨f, st2, htouch, begins_chunk, hst2.as.trans hst1.as, ⟨hst2.own.inj, hst2.own.used⟩,
    fun p g hg => hst2.mono p g (hst1.pages p g hg), fun x => ?_⟩
  rw [State.copyChunk, hst2.own.read_chunk hst2.page hpage, hst2.read, hst1.read, ← copied_append]
  refine if_congr Iff.rfl rfl ?_
  by_cases hin : destAddr ≤ x ∧ x < destAddr + i
  · rw [if_pos hin, if_pos hin, Option.some_or]
  · -- what was there or has been faulted in before stays
    rw [if_neg hin, if_neg hin, Option.or_assoc]
    congr 1
    by_cases ht : Touched destAddr i x
    · rw [if_pos ht, if_pos ((touched_append hpos hpage x).mpr (Or.inl ht)), Option.some_or]
    · rw [if_neg ht, Option.none_or]
      exact if_congr (by rw [touched_append hpos hpage, or_iff_right ht]) rfl rfl

theorem touchable_of_copyLoop (hend : destAddr + count ≤ 2 ^ 64) {n i k : ℕ} (hik : i ≤ k)
    (hk : k < count) (hbegins : Begins destAddr i) (h : OwnFrames M st)
    (hno : ∀ k < count, NoOther st (firstTouch destAddr (destAddr + k)))
    (hrun : copyLoop M destAddr src count n i st ≠ none) :
    Touchable st (firstTouch destAddr (destAddr + k)) := by
  induction n generalizing i st with
  | zero => exact absurd rfl hrun
  | succ n ih =>
    have hi : i < count := by omega
    have hfirst := hbegins.firstTouch
    have hnoi := hno i hi
    rw [hfirst] at hnoi
    rw [copyLoop_succ hend hi] at hrun
    have htouch : touch M st (destAddr + i) ≠ none := by
      intro hnone
      rw [hnone] at hrun
      exact hrun rfl
    have hready := touchable_of_touch hnoi htouch
    by_cases hp : floorTo (destAddr + k) archPageGran = floorTo (destAddr + i) archPageGran
    · rw [firstTouch, hp, ← firstTouch, hfirst]
      exact hready
    · obtain ⟨f, st1, heq, hst1⟩ := touch_faulted h hnoi hready
      rw [heq, Option.bind_some] at hrun
      have hnext : i + chunk destAddr count i ≤ k := by
        obtain ⟨-, -, hpage⟩ := chunk_bounds destAddr hi
        unfold floorTo archPageGran at *
        omega
      have hk1 : Touchable (st1.copyChunk f (destAddr + i) src i (chunk destAddr count i))
          (firstTouch destAddr (destAddr + k)) :=
        ih hnext (begins_chunk (by omega)) ⟨hst1.own.inj, hst1.own.used⟩
          (fun k hk => (hno k hk).mono hst1.as hst1.mono) hrun
      change Touchable st1 _ at hk1
      -- the page was not touched in this round
      unfold Touchable at hk1 ⊢
      rw [floorTo_firstTouch] at hk1 ⊢
      rwa [hst1.other _ hp, hst1.as] at hk1

/-- `vmm_copy_to` and `vmm_zero_out` return `count` and write the range and nothing else exactly if each page
of the range is mapped, or the handler finds a private anonymous segment for its first address in the range.
What a segment of another kind that is found there leaves in the page is not said. -/
theorem copy_to_zero_out_iff (src : ℕ → UInt8) (h : OwnFrames M st)
    (hend : destAddr + count ≤ 2 ^ 64)
    (hno : ∀ k < count, NoOther st (firstTouch destAddr (destAddr + k))) :
    (∃ st', vmmCopyTo M st destAddr src count = some (count, st') ∧
          Copied M destAddr count src st st') ∧
        (∃ st', vmmZeroOut M st destAddr count = some (count, st') ∧
          Copied M destAddr count (fun _ => 0) st st') ↔
      ∀ k < count, Touchable st (firstTouch destAddr (destAddr + k)) := by
  constructor
  · rintro ⟨⟨st', hrun, -⟩, -⟩ k hk
    have hne : vmmCopyTo M st destAddr src count ≠ none :=
      Option.ne_none_iff_exists'.mpr ⟨_, hrun⟩
    exact touchable_of_copyLoop hend (Nat.zero_le k) hk (.inl rfl) h hno hne
  · intro hready
    refine ⟨vmmCopyTo_copied src h hend hno hready, ?_⟩
    rw [vmmZeroOut, zeroLoop_eq]
    exact vmmCopyTo_copied _ h hend hno hready

end

/-- The anonymous page at `0x1000` is mapped by the copy of two bytes, and is 0 elsewhere. -/
theorem copy_to_faults_page_in :
    ∃ st', vmmCopyTo sampleFaultMachine sampleFaultSpace 0x1FFE (fun k => UInt8.ofNat (k + 7)) 2 =
        some (2, st') ∧ Copied sampleFaultMachine 0x1FFE 2 (fun k => UInt8.ofNat (k + 7))
          sampleFaultSpace st' := by
  have hown : OwnFrames sampleFaultMachine sampleFaultSpace :=
    ⟨fun _ _ _ hp => (nomatch hp), fun _ _ _ hp => (nomatch hp)⟩
  have hpage : ∀ k < 2, firstTouch 0x1FFE (0x1FFE + k) = 0x1FFE := by decide
  have hfound : ∃ seg, vmmAddrToSeg sampleFaultSpace.as 0x1FFE = some seg ∧ seg.IsAnonymous :=
    ⟨_, rfl, by decide⟩
  refine ((copy_to_zero_out_iff _ hown (by decide) fun k hk => ?_).mpr fun k hk => ?_).1
  · rw [hpage k hk]
    refine ⟨fun _ => by decide, fun _ seg hseg => ?_⟩
    obtain ⟨seg', hseg', hanon⟩ := hfound
    cases hseg.symm.trans hseg'
    exact hanon
  · rw [hpage k hk]
    exact Or.inr hfound

/-- An anonymous page at the end of the kernel's address space. -/
def lastPageSpace : State :=
  { sampleFaultSpace with
    as := ⟨[mmapSegment (anonymous (2 ^ 64 - 0x1000) 0x1000 0) (2 ^ 64 - 0x1000)], archKernelMinVirt,
      archKernelMaxVirt⟩ }

/-- `vmm_mmap` accepts the last page, and the copy to it panics. -/
theorem copy_to_last_page_panics :
    (∃ seg ∈ lastPageSpace.as.segments, seg.IsAnonymous ∧ seg.base = 2 ^ 64 - 0x1000 ∧
        seg.len = 0x1000) ∧
      mmapPlace ⟨[], archKernelMinVirt, archKernelMaxVirt⟩
        (anonymous (2 ^ 64 - 0x1000) 0x1000 vmmMapFixed) ≠ some (none, ⟨[], archKernelMinVirt,
          archKernelMaxVirt⟩) ∧
      vmmCopyTo sampleFaultMachine lastPageSpace (2 ^ 64 - 0x1000) (fun _ => 7) 1 = none := by
  exact ⟨⟨_, List.mem_cons_self, by decide, rfl, rfl⟩, by decide, by rfl⟩

end LykOS.Vmm
