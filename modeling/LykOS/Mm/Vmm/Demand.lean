import LykOS.Mm.Vmm.Paging
import LykOS.Mm.Vmm.Segments

/-!
# Demand paging and population

A page of a private mapping can come from a page fault or from `vmm_mmap` with `VMM_MAP_POPULATE`. They
install the same page exactly if the handler finds the segment, which it does not if the mapping ends at
`2^64`, and the mapping is anonymous or the fault is at the first byte of the page and the vnode has all its
bytes (`demand_paging_iff`): the handler reads the vnode from the position of the fault on, and what is past
the end of the file stays in the frame. The handler takes the first segment of the list that has the address,
which need not be that of the mapping where segments overlap.
-/

namespace LykOS.Vmm

open Vfs X8664 Interval

/-! ## The segment of an address -/

variable {as : AddrSpace} {a : MmapArgs} {virt : ℕ}

theorem addrToSeg_bounds {seg : Seg} {addr : ℕ} (h : vmmAddrToSeg as addr = some seg) :
    seg.base ≤ addr ∧ addr < seg.base + seg.len := by
  have hp := List.find?_some h
  rw [decide_eq_true_eq] at hp
  exact ⟨hp.1, hp.2.trans_le (Nat.mod_le _ _)⟩

/-! ## The two ways to a page -/

/-- The page at `virt` is mapped, and its bytes satisfy `P`. -/
def State.Filled (st : State) (virt : ℕ) (P : (ℕ → UInt8) → Prop) : Prop :=
  ∃ g, st.pages virt = some g ∧ P (st.store.mem g)

theorem Installed.filled {M : Machine} {P : (ℕ → UInt8) → Prop} {st st' : State}
    (h : Installed M virt P st st') : st'.Filled virt P :=
  ⟨_, by rw [h.pages, Function.update_self], h.bytes⟩

/-- The same request with `VMM_MAP_POPULATE`. -/
def MmapArgs.withPopulate (a : MmapArgs) : MmapArgs :=
  { a with flags := a.flags ||| vmmMapPopulate }

theorem hasFlag_withPopulate (a : MmapArgs) {flag : ℕ} (h : vmmMapPopulate &&& flag = 0) :
    hasFlag a.withPopulate.flags flag = hasFlag a.flags flag := by
  unfold hasFlag MmapArgs.withPopulate
  rw [Nat.and_or_distrib_right, h, Nat.or_zero]

theorem hasFlag_populate (a : MmapArgs) : hasFlag a.withPopulate.flags vmmMapPopulate = true := by
  unfold hasFlag MmapArgs.withPopulate
  rw [Nat.and_or_distrib_right, bne_iff_ne]
  exact fun h => absurd (Nat.or_eq_zero_iff.mp h).2 (by decide)

theorem mmapPlace_withPopulate {as' : AddrSpace} (h : mmapPlace as a = some (some virt, as')) :
    ∃ as'', mmapPlace as a.withPopulate = some (some virt, as'') := by
  have hasserts : mmapAsserts a.withPopulate = mmapAsserts a := by
    unfold mmapAsserts
    rw [hasFlag_withPopulate a (by decide), hasFlag_withPopulate a (by decide),
      hasFlag_withPopulate a (by decide)]
    rfl
  have hrefused : mmapRefused as a.withPopulate = mmapRefused as a := rfl
  simp only [mmapPlace, Option.bind_eq_bind, Option.bind_eq_some_iff] at h ⊢
  obtain ⟨u, hguard, h⟩ := h
  refine ⟨vmmInsertSeg as (mmapSegment a.withPopulate virt), u, by rw [hasserts]; exact hguard, ?_⟩
  rw [hrefused, hasFlag_withPopulate a (by decide)]
  by_cases hfixed : (mmapRefused as a && hasFlag a.flags vmmMapFixed) = true
  · rw [if_pos hfixed] at h
    cases h
  · rw [if_neg hfixed] at h ⊢
    cases h
    rfl

/-- A private mapping that `vmm_mmap` accepts and puts at a page `virt`, where all its addresses are
canonical. -/
structure PrivateMapping (as : AddrSpace) (a : MmapArgs) (virt : ℕ) : Prop where
  place : ∃ as', mmapPlace as a = some (some virt, as')
  isPrivate : hasFlag a.flags vmmMapPrivate = true
  aligned : virt % archPageGran = 0
  canonical : ∀ i < a.len, Canonical (virt + i)

theorem PrivateMapping.asserts (h : PrivateMapping as a virt) : mmapAsserts a = true := by
  obtain ⟨as', hplace⟩ := h.place
  simp only [mmapPlace, Option.bind_eq_bind, Option.bind_eq_some_iff] at hplace
  obtain ⟨u, hguard, -⟩ := hplace
  exact (Option.guard_eq_some' _).mp hguard

/-- A new page of the mapping has bytes as in `P`, where `P` depends on the offset into the vnode and
`Good` is kept. -/
def Fills (M : Machine) (a : MmapArgs) (Good : Store → Prop) (P : ℕ → (ℕ → UInt8) → Prop) : Prop :=
  ∀ (st : State) (flags virt offset : ℕ), hasFlag flags vmmMapAnon = hasFlag a.flags vmmMapAnon →
    CanonicalPage virt → Good st.store →
    ∃ st', installPrivate M st flags a.vnode virt offset = some st' ∧
      Installed M virt (P offset) st st' ∧ Good st'.store

theorem fills_anon (M : Machine) (hanon : hasFlag a.flags vmmMapAnon = true) :
    Fills M a (fun _ => True) fun _ bytes => ∀ k, bytes k = 0 := by
  intro st flags virt offset hflags hv _
  obtain ⟨st', hst, hinst⟩ := installPrivate_anon (hflags.trans hanon) a.vnode hv
  exact ⟨st', hst, hinst, trivial⟩

theorem fills_file {M : Machine} {vn : ℕ} {f : File} {cached : Bool} {c : ℕ → Option UInt8}
    {G : UInt8 → Prop} (hfile : hasFlag a.flags vmmMapAnon = false) (hvn : a.vnode = some vn) :
    Fills M a (Holds M vn f cached c G) fun offset bytes =>
      ∀ k < archPageGran, IsByte c G (position cached offset k) (bytes k) := by
  intro st flags virt offset hflags hv hgood
  rw [hvn]
  exact installPrivate_file (hflags.trans hfile) hv hgood

section

variable {M : Machine} {as : AddrSpace} {a : MmapArgs} {virt addr : ℕ} {Good : Store → Prop}
  {P : ℕ → (ℕ → UInt8) → Prop} {st : State}

theorem PrivateMapping.page (h : PrivateMapping as a virt) {j : ℕ} (hj : j < a.len / archPageGran) :
    CanonicalPage (virt + j * archPageGran) := by
  have hcanon := h.canonical (j * archPageGran)
  have hvirt := h.aligned
  unfold archPageGran at *
  exact ⟨hcanon (by omega), by unfold archPageGran; omega⟩

theorem PrivateMapping.floor (h : PrivateMapping as a virt) (hle : virt ≤ addr)
    (hlt : addr < virt + a.len) :
    (addr - virt) / archPageGran < a.len / archPageGran ∧
      floorTo addr archPageGran = virt + (addr - virt) / archPageGran * archPageGran := by
  have hasserts := h.asserts
  have hvirt := h.aligned
  simp only [mmapAsserts, Bool.and_eq_true, decide_eq_true_eq] at hasserts
  have hlen := hasserts.1.1.2
  unfold floorTo archPageGran at *
  omega

theorem pagefault_filled (h : PrivateMapping as a virt)
    (hfound : vmmAddrToSeg st.as addr = some (mmapSegment a virt)) (hfills : Fills M a Good P)
    (hgood : Good st.store) :
    ∃ st', vmmPagefaultHandler M st addr = some (true, st') ∧
      st'.Filled (floorTo addr archPageGran) (P (u64 (addr - virt + a.offset))) := by
  obtain ⟨hle, hlt⟩ := addrToSeg_bounds hfound
  obtain ⟨hj, hfloor⟩ := h.floor hle hlt
  have hpage : CanonicalPage (floorTo addr archPageGran) := hfloor ▸ h.page hj
  obtain ⟨st', hst, hinst, -⟩ := hfills st a.flags _ (u64 (addr - virt + a.offset)) rfl hpage hgood
  refine ⟨st', ?_, hinst.filled⟩
  unfold vmmPagefaultHandler
  rw [hfound]
  simp only [mmapSegment, h.isPrivate, if_true, hst]
  rfl

theorem mmap_filled (h : PrivateMapping as a virt) (has : st.as = as) (hfills : Fills M a Good P)
    (hgood : Good st.store) :
    ∃ st', vmmMmap M st a.withPopulate = some (some virt, st') ∧
      ∀ j < a.len / archPageGran,
        st'.Filled (virt + j * archPageGran) (P (u64 (a.offset + j * archPageGran))) := by
  obtain ⟨as', hplace⟩ := h.place
  obtain ⟨as'', hplace⟩ := mmapPlace_withPopulate hplace
  have hstep : ∀ j < a.len / archPageGran, ∀ st : State, Good st.store →
      ∃ st', populatePage M a.withPopulate virt st (j * archPageGran) = some st' ∧
        Installed M (virt + j * archPageGran) (P (u64 (a.offset + j * archPageGran))) st st' ∧
        Good st'.store := by
    intro j hj st hgood
    have hpage := h.page hj
    have hlt : virt + j * archPageGran < 2 ^ 64 := by
      have hcanon := hpage.1
      unfold Canonical at hcanon
      omega
    unfold populatePage
    rw [hasFlag_withPopulate a (by decide), h.isPrivate, if_pos rfl, u64_of_lt hlt]
    exact hfills st _ _ _ (hasFlag_withPopulate a (by decide)) hpage hgood
  obtain ⟨st', hrun, -, hpages⟩ := populate_spec { st with as := as'' } hgood hstep
  refine ⟨st', ?_, fun j hj => ?_⟩
  · unfold vmmMmap
    rw [has, hplace]
    simp only [Option.bind_eq_bind, Option.bind_some, hasFlag_populate, if_true]
    rw [show a.withPopulate.len = a.len from rfl, hrun]
    rfl
  · obtain ⟨g, hg, hbytes, -⟩ := hpages j hj
    exact ⟨g, hg, hbytes⟩

end

/-! ## Vnodes -/

/-- Where a vnode has bytes: the size of its file, and its cached pages if it is read through the
cache. -/
structure Extent where
  cached : Bool
  size : ℕ
  pages : ℕ → Bool

def Extent.InCache (e : Extent) (x : ℕ) : Prop := e.cached = true ∧ e.pages (pageOf x) = true

instance (e : Extent) (x : ℕ) : Decidable (e.InCache x) := inferInstanceAs (Decidable (_ ∧ _))

/-- The vnode has a byte at position `x`. -/
def Extent.Has (e : Extent) (x : ℕ) : Prop := e.InCache x ∨ x < e.size

instance (e : Extent) (x : ℕ) : Decidable (e.Has x) := inferInstanceAs (Decidable (_ ∨ _))

def Extent.content (e : Extent) (bytes : ℕ → UInt8) (x : ℕ) : Option UInt8 :=
  if e.Has x then some (bytes x) else none

/-- The vnode `vn` has the bytes `bytes` on `e`: those of the cached pages, which may be newer than
the file, and outside them those of the file. -/
structure Backed (M : Machine) (vn : ℕ) (e : Extent) (bytes : ℕ → UInt8) (s : Store) : Prop where
  vnode : ∃ f : File, M.vnodes vn = f.vnode e.cached ∧ f.size = e.size ∧
    ∀ x, ¬ e.InCache x → f.bytes x = bytes x
  pages : ∀ po, (s.pageCache vn po).isSome = e.pages po
  cache : ∀ x g, e.cached = true → s.pageCache vn (pageOf x) = some g →
    s.mem g (x % archPageGran) = bytes x
  used : ∀ po g n, s.pageCache vn po = some g → s.taken ≤ n → M.frames n ≠ g

theorem Backed.holds {M : Machine} {vn : ℕ} {e : Extent} {bytes : ℕ → UInt8} {s : Store}
    (h : Backed M vn e bytes s) {G : UInt8 → Prop}
    (hfree : ∀ n q, s.taken ≤ n → G (s.mem (M.frames n) q)) :
    ∃ f, Holds M vn f e.cached (e.content bytes) G s := by
  obtain ⟨f, hvn, hsize, hbytes⟩ := h.vnode
  refine ⟨f, hvn, fun x hx => ?_, fun x g hcached hx => ?_, h.used, hfree⟩
  · have hnot : ¬ e.InCache x := by
      rintro ⟨hcached, hpage⟩
      rw [← h.pages, hx hcached] at hpage
      cases hpage
    unfold Extent.content Extent.Has File.byte?
    rw [hsize, hbytes x hnot]
    simp only [hnot, false_or]
  · have hin : e.InCache x := ⟨hcached, by rw [← h.pages, hx]; rfl⟩
    left
    rw [h.cache x g hcached hx]
    exact if_pos (Or.inl hin)

theorem isByte_content {e : Extent} {bytes : ℕ → UInt8} {G : UInt8 → Prop} {x : ℕ} {v : UInt8}
    (h : IsByte (e.content bytes) G x v) : (e.Has x ∧ v = bytes x) ∨ (¬ e.Has x ∧ G v) := by
  unfold IsByte Extent.content at h
  by_cases hx : e.Has x
  · rw [if_pos hx] at h
    rcases h with h | ⟨h, -⟩
    · exact Or.inl ⟨hx, (Option.some.inj h).symm⟩
    · cases h
  · rw [if_neg hx] at h
    rcases h with h | ⟨-, h⟩
    · cases h
    · exact Or.inr ⟨hx, h⟩

/-! ## The comparison -/

/-- A fault at `addr` in `lazy` and the populated mapping in `eager` install the same page. -/
def SamePage (M₁ M₂ : Machine) (lazy eager : State) (a : MmapArgs) (virt addr : ℕ) : Prop :=
  ∃ s₁ s₂, vmmPagefaultHandler M₁ lazy addr = some (true, s₁) ∧
    vmmMmap M₂ eager a.withPopulate = some (some virt, s₂) ∧
    ∀ k < archPageGran, ∃ v, s₁.byte? (floorTo addr archPageGran) k = some v ∧
      s₂.byte? (floorTo addr archPageGran) k = some v

/-- The page of `addr` is the same for all bytes of the vnode and whatever the free frames are and
hold. The mapping is made in `as`, and the fault is in `las`. -/
def DemandPaging (as las : AddrSpace) (a : MmapArgs) (virt addr : ℕ) (e : Extent) : Prop :=
  ∀ (bytes : ℕ → UInt8) (M₁ M₂ : Machine) (lazy eager : State), lazy.as = las → eager.as = as →
    (∀ vn ∈ a.vnode, Backed M₁ vn e bytes lazy.store ∧ Backed M₂ vn e bytes eager.store) →
    SamePage M₁ M₂ lazy eager a virt addr

theorem samePage_iff {M₁ M₂ : Machine} {as : AddrSpace} {lazy eager : State} {a : MmapArgs}
    {virt addr : ℕ} {Good₁ Good₂ : Store → Prop} {P₁ P₂ : ℕ → (ℕ → UInt8) → Prop}
    (h : PrivateMapping as a virt) (hfound : vmmAddrToSeg lazy.as addr = some (mmapSegment a virt))
    (has : eager.as = as)
    (hfills₁ : Fills M₁ a Good₁ P₁) (hgood₁ : Good₁ lazy.store)
    (hfills₂ : Fills M₂ a Good₂ P₂) (hgood₂ : Good₂ eager.store) :
    ∃ b₁ b₂, P₁ (u64 (addr - virt + a.offset)) b₁ ∧
      P₂ (u64 (a.offset + (floorTo addr archPageGran - virt))) b₂ ∧
      (SamePage M₁ M₂ lazy eager a virt addr ↔ ∀ k < archPageGran, b₁ k = b₂ k) := by
  obtain ⟨hle, hlt⟩ := addrToSeg_bounds hfound
  obtain ⟨s₁, hs₁, g₁, hg₁, hb₁⟩ := pagefault_filled h hfound hfills₁ hgood₁
  obtain ⟨s₂, hs₂, hpages⟩ := mmap_filled h has hfills₂ hgood₂
  obtain ⟨hj, hfloor⟩ := h.floor hle hlt
  obtain ⟨g₂, hg₂, hb₂⟩ := hpages _ hj
  rw [← hfloor] at hg₂
  rw [← Nat.add_sub_cancel_left (n := virt) (m := _ * archPageGran), ← hfloor] at hb₂
  refine ⟨s₁.store.mem g₁, s₂.store.mem g₂, hb₁, hb₂, ?_, fun heq => ⟨s₁, s₂, hs₁, hs₂, ?_⟩⟩
  · rintro ⟨t₁, t₂, ht₁, ht₂, heq⟩ k hk
    obtain ⟨v, hv₁, hv₂⟩ := heq k hk
    rw [hs₁] at ht₁
    rw [hs₂] at ht₂
    cases ht₁
    cases ht₂
    unfold State.byte? at hv₁ hv₂
    rw [hg₁] at hv₁
    rw [hg₂] at hv₂
    exact (Option.some.inj hv₁).trans (Option.some.inj hv₂).symm
  · intro k hk
    refine ⟨s₁.store.mem g₁ k, ?_, ?_⟩
    · unfold State.byte?
      rw [hg₁]
      rfl
    · unfold State.byte?
      rw [hg₂, heq k hk]
      rfl

/-! ## States that tell the two apart -/

/-- Even frames are free, odd ones hold the cached pages. -/
def probeMachine (e : Extent) (bytes : ℕ → UInt8) : Machine where
  vnodes _ := File.vnode ⟨e.size, bytes⟩ e.cached
  frames n := 2 * n * archPageGran
  injective m n h := by
    have h : 2 * m * 4096 = 2 * n * 4096 := h
    omega
  aligned n := Nat.mul_mod_left _ _

/-- The vnode has the bytes `bytes` on `e`, and the free frames are full of `g`. -/
def probeState (as : AddrSpace) (e : Extent) (bytes : ℕ → UInt8) (g : UInt8) : State where
  as := as
  pages _ := none
  store :=
    { mem := fun frame q =>
        if frame / archPageGran % 2 = 1 then bytes (frame / archPageGran / 2 + q) else g
      pageCache := fun _ po => if e.pages po then some ((2 * po + 1) * archPageGran) else none
      taken := 0 }
  low _ _ := g

section

variable (as : AddrSpace) (e : Extent) (bytes : ℕ → UInt8) (g : UInt8)

theorem probe_free (n q : ℕ) :
    (probeState as e bytes g).store.mem ((probeMachine e bytes).frames n) q = g := by
  have heven : 2 * n * archPageGran / archPageGran % 2 ≠ 1 := by
    rw [Nat.mul_div_cancel _ (by decide)]
    omega
  exact if_neg heven

theorem probe_backed (vn : ℕ) :
    Backed (probeMachine e bytes) vn e bytes (probeState as e bytes g).store := by
  have hcache : ∀ po f, (probeState as e bytes g).store.pageCache vn po = some f →
      f = (2 * po + 1) * archPageGran := by
    intro po f hf
    simp only [probeState, Option.ite_none_right_eq_some] at hf
    exact (Option.some.inj hf.2).symm
  refine ⟨⟨⟨e.size, bytes⟩, rfl, rfl, fun _ _ => rfl⟩, fun po => ?_, fun x f _ hx => ?_, ?_⟩
  · show (if e.pages po then some _ else none : Option ℕ).isSome = e.pages po
    cases e.pages po <;> rfl
  · have hodd : (2 * pageOf x + 1) * archPageGran / archPageGran = 2 * pageOf x + 1 :=
      Nat.mul_div_cancel _ (by decide)
    rw [hcache _ f hx]
    show (if _ then bytes _ else g) = bytes x
    rw [hodd, if_pos (by omega), show (2 * pageOf x + 1) / 2 = pageOf x by omega, pageOf_add_mod]
  · intro po f n hpo _ heq
    have hframe : 2 * n * archPageGran = (2 * po + 1) * archPageGran := heq.trans (hcache po f hpo)
    have := Nat.eq_of_mul_eq_mul_right (by decide) hframe
    omega

theorem probe_holds (vn : ℕ) :
    ∃ f, Holds (probeMachine e bytes) vn f e.cached (e.content bytes) (· = g)
      (probeState as e bytes g).store :=
  (probe_backed as e bytes g vn).holds fun n q _ => probe_free as e bytes g n q

end

/-! ## When the two agree -/

/-- The vnode has all bytes of the page that is read at `offset`. -/
def Extent.HasPage (e : Extent) (offset : ℕ) : Prop :=
  ∀ k < archPageGran, e.Has (position e.cached offset k)

/-- The two offsets into the vnode differ by the position of the fault in its page. -/
theorem offset_eq_iff (offset : ℕ) {virt addr : ℕ} (hvirt : virt % archPageGran = 0) (hle : virt ≤ addr) :
    u64 (addr - virt + offset) = u64 (offset + (floorTo addr archPageGran - virt)) ↔
      addr % archPageGran = 0 := by
  unfold u64 floorTo archPageGran at *
  omega

section

variable {as las : AddrSpace} {a : MmapArgs} {virt addr : ℕ} {e : Extent}

theorem PrivateMapping.exists_vnode (h : PrivateMapping as a virt)
    (hfile : hasFlag a.flags vmmMapAnon = false) : ∃ vn, a.vnode = some vn := by
  have hasserts := h.asserts
  simp only [mmapAsserts, Bool.and_eq_true, hfile, Bool.false_bne] at hasserts
  exact Option.isSome_iff_exists.mp hasserts.2

theorem demandPaging_anon (h : PrivateMapping as a virt)
    (hfound : vmmAddrToSeg las addr = some (mmapSegment a virt))
    (hanon : hasFlag a.flags vmmMapAnon = true) : DemandPaging as las a virt addr e := by
  rintro bytes M₁ M₂ lazy eager rfl has -
  obtain ⟨b₁, b₂, hb₁, hb₂, hiff⟩ :=
    samePage_iff h hfound has (fills_anon M₁ hanon) trivial (fills_anon M₂ hanon) trivial
  exact hiff.mpr fun k _ => (hb₁ k).trans (hb₂ k).symm

theorem demandPaging_file (h : PrivateMapping as a virt)
    (hfound : vmmAddrToSeg las addr = some (mmapSegment a virt))
    (hfile : hasFlag a.flags vmmMapAnon = false) (haddr : addr % archPageGran = 0)
    (hpage : e.HasPage (u64 (a.offset + (addr - virt)))) : DemandPaging as las a virt addr e := by
  rintro bytes M₁ M₂ lazy eager rfl has hbacked
  obtain ⟨vn, hvn⟩ := h.exists_vnode hfile
  obtain ⟨f₁, h₁⟩ := (hbacked vn hvn).1.holds (G := fun _ => True) fun _ _ _ => trivial
  obtain ⟨f₂, h₂⟩ := (hbacked vn hvn).2.holds (G := fun _ => True) fun _ _ _ => trivial
  obtain ⟨b₁, b₂, hb₁, hb₂, hiff⟩ :=
    samePage_iff h hfound has (fills_file hfile hvn) h₁ (fills_file hfile hvn) h₂
  rw [(offset_eq_iff a.offset h.aligned (addrToSeg_bounds hfound).1).mpr haddr] at hb₁
  have hfloor : floorTo addr archPageGran = addr := Nat.div_mul_cancel (Nat.dvd_of_mod_eq_zero haddr)
  rw [hfloor] at hb₁ hb₂
  refine hiff.mpr fun k hk => ?_
  rcases isByte_content (hb₁ k hk) with ⟨-, hv₁⟩ | ⟨hno, -⟩
  · rcases isByte_content (hb₂ k hk) with ⟨-, hv₂⟩ | ⟨hno, -⟩
    · rw [hv₁, hv₂]
    · exact absurd (hpage k hk) hno
  · exact absurd (hpage k hk) hno

theorem probe_samePage (h : PrivateMapping as a virt)
    (hfound : vmmAddrToSeg las addr = some (mmapSegment a virt))
    (hfile : hasFlag a.flags vmmMapAnon = false) {bytes : ℕ → UInt8}
    (hbytes : ∀ x, bytes x = if x = u64 (a.offset + (floorTo addr archPageGran - virt)) then 1 else 0)
    (hsame : SamePage (probeMachine e bytes) (probeMachine e bytes) (probeState las e bytes 0)
      (probeState as e bytes 1) a virt addr) :
    addr % archPageGran = 0 ∧ e.HasPage (u64 (a.offset + (addr - virt))) := by
  obtain ⟨vn, hvn⟩ := h.exists_vnode hfile
  obtain ⟨f₁, h₁⟩ := probe_holds las e bytes 0 vn
  obtain ⟨f₂, h₂⟩ := probe_holds as e bytes 1 vn
  obtain ⟨b₁, b₂, hb₁, hb₂, hiff⟩ :=
    samePage_iff h hfound rfl (fills_file hfile hvn) h₁ (fills_file hfile hvn) h₂
  have heq := hiff.mp hsame
  have haddr : addr % archPageGran = 0 := by
    by_contra hne
    have hoff := mt (offset_eq_iff a.offset h.aligned (addrToSeg_bounds hfound).1).mp hne
    have hv₁ := isByte_content (hb₁ 0 (by decide))
    have hv₂ := isByte_content (hb₂ 0 (by decide))
    rw [position_zero _ (u64_lt _), hbytes, if_neg hoff] at hv₁
    rw [position_zero _ (u64_lt _), hbytes, if_pos rfl] at hv₂
    have h0 : b₁ 0 = 0 := hv₁.elim And.right And.right
    have h1 : b₂ 0 = 1 := hv₂.elim And.right And.right
    exact absurd (h0.symm.trans ((heq 0 (by decide)).trans h1)) (by decide)
  refine ⟨haddr, fun k hk => ?_⟩
  by_contra hno
  have hfloor : floorTo addr archPageGran = addr := Nat.div_mul_cancel (Nat.dvd_of_mod_eq_zero haddr)
  rw [(offset_eq_iff a.offset h.aligned (addrToSeg_bounds hfound).1).mpr haddr] at hb₁
  rw [hfloor] at hb₁ hb₂
  have h0 : b₁ k = 0 := (isByte_content (hb₁ k hk)).elim (fun hc => absurd hc.1 hno) And.right
  have h1 : b₂ k = 1 := (isByte_content (hb₂ k hk)).elim (fun hc => absurd hc.1 hno) And.right
  exact absurd (h0.symm.trans ((heq k hk).trans h1)) (by decide)

/-- A fault installs the page that populating the mapping installs exactly if the handler finds the segment,
and the mapping is anonymous or the fault is at the first byte of a page that the vnode has in full. What
another segment that is found in front of it installs is not said. -/
theorem demand_paging_iff (e : Extent) (h : PrivateMapping as a virt)
    (hfirst : ∀ seg, vmmAddrToSeg las addr = some seg → seg = mmapSegment a virt) :
    DemandPaging as las a virt addr e ↔ vmmAddrToSeg las addr = some (mmapSegment a virt) ∧
      (hasFlag a.flags vmmMapAnon = true ∨
        addr % archPageGran = 0 ∧ e.HasPage (u64 (a.offset + (addr - virt)))) := by
  constructor
  · intro hall
    let bytes : ℕ → UInt8 := fun x =>
      if x = u64 (a.offset + (floorTo addr archPageGran - virt)) then 1 else 0
    have hsame := hall bytes (probeMachine e bytes) (probeMachine e bytes) (probeState las e bytes 0)
      (probeState as e bytes 1) rfl rfl fun vn _ =>
        ⟨probe_backed las e bytes 0 vn, probe_backed as e bytes 1 vn⟩
    have hfound : vmmAddrToSeg las addr = some (mmapSegment a virt) := by
      cases hseg : vmmAddrToSeg las addr with
      | some seg => rw [hfirst seg hseg]
      | none =>
        obtain ⟨s₁, -, hs₁, -⟩ := hsame
        unfold vmmPagefaultHandler at hs₁
        rw [show (probeState las e bytes 0).as = las from rfl, hseg] at hs₁
        cases hs₁
    refine ⟨hfound, ?_⟩
    cases hanon : hasFlag a.flags vmmMapAnon with
    | true => exact Or.inl rfl
    | false => exact Or.inr (probe_samePage h hfound hanon (fun _ => rfl) hsame)
  · rintro ⟨hfound, hcond⟩
    cases hanon : hasFlag a.flags vmmMapAnon with
    | true => exact demandPaging_anon h hfound hanon
    | false =>
      rcases hcond with hc | ⟨haddr, hpage⟩
      · exact absurd (hanon.symm.trans hc) Bool.false_ne_true
      · exact demandPaging_file h hfound hanon haddr hpage

end

def sampleExtent : Extent := ⟨false, 0x2000, fun _ => false⟩

def sampleMapping : MmapArgs := ⟨0x1000, 0x1000, vmmProtFull, vmmMapPrivate, some 0, 0⟩

def sampleSpace : AddrSpace := vmmNewAddrSpace 0 archUserMaxVirt

theorem demand_paging_iff_first :
    DemandPaging sampleSpace (vmmInsertSeg sampleSpace (mmapSegment sampleMapping 0x1000))
      sampleMapping 0x1000 0x1000 sampleExtent := by
  have hmap : PrivateMapping sampleSpace sampleMapping 0x1000 :=
    ⟨⟨_, rfl⟩, rfl, rfl, fun i hi => Or.inl (by have : i < 0x1000 := hi; omega)⟩
  have hfound : vmmAddrToSeg (vmmInsertSeg sampleSpace (mmapSegment sampleMapping 0x1000)) 0x1000 =
      some (mmapSegment sampleMapping 0x1000) := by decide
  refine (demand_paging_iff sampleExtent hmap fun seg h => Option.some.inj (h.symm.trans hfound)).mpr
    ⟨hfound, Or.inr ⟨rfl, fun k hk => Or.inr ?_⟩⟩
  show 0 + k < 0x2000
  have : k < 0x1000 := hk
  omega

/-- The file has the byte `x` at position `x`. Touched at its second byte, the page starts with the
second byte of the file; populated, it starts with the first. -/
theorem demand_paging_differs :
    let bytes := UInt8.ofNat
    let M := probeMachine sampleExtent bytes
    let st := probeState sampleSpace sampleExtent bytes 0
    (do
      let (_, st) ← vmmMmap M st sampleMapping
      let (_, st) ← vmmPagefaultHandler M st 0x1001
      st.byte? 0x1000 0) = some 1 ∧
    (do
      let (_, st) ← vmmMmap M st sampleMapping.withPopulate
      st.byte? 0x1000 0) = some 0 := by
  decide +kernel

end LykOS.Vmm
