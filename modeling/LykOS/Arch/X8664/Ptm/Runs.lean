import LykOS.Arch.Ptm.Interface

/-!
# Address translation over whole runs

After every run, with or without `arch_ptm_init` at its start, `arch_ptm_virt_to_phys` returns what
`view` says (`ptm_run_finite_map`). After `arch_ptm_init` the higher half is one for all maps, and the
lower halves are separate (`ptm_run_sharing`).
-/

namespace LykOS.X8664

open Radix Run Option
open PageTables (Op setView)

def interface (F : FrameSupply) : PageTables.Interface where
  State := Ptm
  Map := ℕ
  taken s := s.taken
  boot memory init := if init = true then archPtmInit F.frames (boot memory) else some (boot memory)
  newMap := archPtmNewMap F.frames
  map := archPtmMap F.frames
  unmap := archPtmUnmap F.frames
  virtToPhys s map virt := some (archPtmVirtToPhys F.frames s map virt)

abbrev World := PageTables.World Ptm ℕ

def step (F : FrameSupply) (shared : Bool) (w : World) (op : Op) : Option World :=
  PageTables.step F (interface F) shared w op

def start (F : FrameSupply) (memory : ℕ → Fin 512 → ℕ) (init : Bool) : Option World :=
  PageTables.start F (interface F) memory init

/-! ## The invariant -/

/-- The entry for what is mapped at a page. -/
def entryOf : Option ℕ → ℕ
  | none => 0
  | some phys => phys + 7

/-- The leaves hold what is mapped. -/
structure WorldInv (F : FrameSupply) (shared : Bool) (w : World) (frame : Place → Option ℕ) :
    Prop where
  inv : Inv F shared w.ptm w.maps frame
  leaf : ∀ j {v}, CanonicalPage v →
    (scheme shared).leaf w.ptm.tables frame (leafPlace shared j v) (tableEntry v 12) =
      entryOf (w.view j v)
  isFrame : ∀ {j v phys}, w.view j v = some phys → IsFrame phys
  agree : ∀ i j {v}, SharedPage shared v → w.view i v = w.view j v

section

variable {F : FrameSupply} {shared : Bool} {w : World} {frame : Place → Option ℕ}

theorem setView_isFrame (h : ∀ {j v phys}, w.view j v = some phys → IsFrame phys) {x : Option ℕ}
    (hx : ∀ phys, x = some phys → IsFrame phys) {i j v v' phys : ℕ}
    (hv : setView shared w.view i v' x j v = some phys) : IsFrame phys := by
  unfold setView at hv
  split_ifs at hv
  · exact hx phys hv
  · exact h hv

theorem setView_agree (h : ∀ i j {v}, SharedPage shared v → w.view i v = w.view j v) {x : Option ℕ}
    {k v' : ℕ} (i j : ℕ) {v : ℕ} (hv : SharedPage shared v) :
    setView shared w.view k v' x i v = setView shared w.view k v' x j v := by
  unfold setView
  by_cases hvv : v = v'
  · subst hvv
    rw [if_pos ⟨rfl, Or.inr hv⟩, if_pos ⟨rfl, Or.inr hv⟩]
  · rw [if_neg fun hc => hvv hc.1, if_neg fun hc => hvv hc.1, h i j hv]

theorem WorldInv.setView (h : WorldInv F shared w frame) {s : Ptm} {frame' : Place → Option ℕ}
    (hinv : Inv F shared s w.maps frame') {j v : ℕ} (hv : CanonicalPage v) {x : Option ℕ}
    (hx : ∀ phys, x = some phys → IsFrame phys)
    (hnew : (scheme shared).leaf s.tables frame' (leafPlace shared j v) (tableEntry v 12) = entryOf x)
    (hold : ∀ q i, q.2.length = 3 → (q, i) ≠ (leafPlace shared j v, tableEntry v 12) →
      (scheme shared).leaf s.tables frame' q i = (scheme shared).leaf w.ptm.tables frame q i) :
    WorldInv F shared ⟨s, w.maps, PageTables.setView shared w.view j v x⟩ frame' := by
  refine ⟨hinv, fun j' v' hv' => ?_, fun hv => setView_isFrame h.isFrame hx hv,
    fun i j v hv => setView_agree h.agree i j hv⟩
  show _ = entryOf (if v' = v ∧ (j' = j ∨ SharedPage shared v) then x else w.view j' v')
  by_cases hc : v' = v ∧ (j' = j ∨ SharedPage shared v)
  · obtain ⟨hplace, hidx⟩ := Prod.mk.inj ((leafPlace_eq_iff hv hv').mpr hc)
    rw [if_pos hc, hplace, hidx]
    exact hnew
  · rw [if_neg hc, hold _ _ (length_leafPlace ..) fun he => hc ((leafPlace_eq_iff hv hv').mp he)]
    exact h.leaf j' hv'

theorem WorldInv.map (h : WorldInv F shared w frame) {j m v phys : ℕ}
    (hj : w.maps[j]? = some m) (hv : CanonicalPage v) (hp : IsFrame phys) :
    ∃ s, archPtmMap F.frames w.ptm m v phys archPageGran = some s ∧ (s.taken ≤ F.limit → ∃ frame',
      WorldInv F shared ⟨s, w.maps, PageTables.setView shared w.view j v (some phys)⟩ frame') := by
  obtain ⟨s, heq, hspec⟩ := archPtmMap_spec h.inv hj hv.2 hp
  refine ⟨s, heq, fun hlim => ?_⟩
  obtain ⟨frame', hinv, hnew, hold⟩ := hspec hlim
  exact ⟨frame', h.setView hinv hv (by rintro _ ⟨⟩; exact hp) hnew hold⟩

theorem WorldInv.unmap (h : WorldInv F shared w frame) {j m v phys : ℕ}
    (hj : w.maps[j]? = some m) (hv : CanonicalPage v) (hp : phys % archPageGran = 0) :
    ∃ s, archPtmUnmap F.frames w.ptm m v phys archPageGran = some s ∧
      WorldInv F shared ⟨s, w.maps, PageTables.setView shared w.view j v none⟩ frame := by
  obtain ⟨s, heq, hinv, hnew, hold⟩ := archPtmUnmap_spec h.inv hj hv.2 hp
  exact ⟨s, heq, h.setView hinv hv (by rintro _ ⟨⟩) hnew fun q i _ => hold q i⟩

theorem WorldInv.newMap (h : WorldInv F shared w frame) (hlim : w.ptm.taken < F.limit) :
    ∃ frame', WorldInv F shared { w with
      ptm := (archPtmNewMap F.frames w.ptm).2
      maps := w.maps ++ [(archPtmNewMap F.frames w.ptm).1] } frame' := by
  obtain ⟨frame', hinv, hleaf⟩ := archPtmNewMap_spec h.inv hlim
  refine ⟨frame', hinv, fun j v hv => ?_, h.isFrame, h.agree⟩
  rw [hleaf _ _ (length_leafPlace ..)]
  exact h.leaf j hv

theorem WorldInv.lookup (h : WorldInv F shared w frame) {j m v o : ℕ} (hj : w.maps[j]? = some m)
    (hv : CanonicalPage v) (ho : o < archPageGran) :
    archPtmVirtToPhys F.frames w.ptm m (v + o) = (w.view j v).elim badAddress (· + o) := by
  have hentry : ∀ shift, 12 ≤ shift → tableEntry (v + o) shift = tableEntry v shift :=
    fun shift hs => tableEntry_add hv.2 ho hs
  have hplace : leafPlace shared j (v + o) = leafPlace shared j v := by
    unfold leafPlace tablePath
    rw [hentry 39 (by decide), hentry 30 (by decide), hentry 21 (by decide)]
  have hoffset : (v + o) &&& 0xFFF = o := by
    have hmod := hv.2
    unfold archPageGran at hmod ho
    rw [show (0xFFF : ℕ) = 2 ^ 12 - 1 from rfl, Nat.and_two_pow_sub_one_eq_mod]
    omega
  have hleaf : (scheme shared).leaf w.ptm.tables frame (leafPlace shared j (v + o))
      (tableEntry (v + o) 12) = entryOf (w.view j v) := by
    rw [hplace, hentry 12 (by decide)]
    exact h.leaf j hv
  rw [archPtmVirtToPhys_eq h.inv hj (v + o) hleaf, hoffset]
  cases hview : w.view j v with
  | none =>
    show (if 0 &&& present = 0 then _ else _) = badAddress
    rw [Nat.zero_and, if_pos rfl]
  | some phys =>
    have hp := h.isFrame hview
    have hmod := hp.1
    unfold archPageGran at hmod
    show (if (phys + 7) &&& present = 0 then _ else pteGetAddr (phys + 7) + o) = phys + o
    rw [and_present, if_neg (by omega), pteGetAddr_add hp (by decide)]

theorem step_inv {w' : World} {op : Op}
    (h : ∃ frame, WorldInv F shared w frame) (hs : step F shared w op = some w') :
    ∃ frame, WorldInv F shared w' frame := by
  obtain ⟨frame, h⟩ := h
  cases op with
  | newMap =>
    simp only [step, PageTables.step, interface, bind_eq_bind, bind_eq_some_iff, pure_def] at hs
    obtain ⟨_, hg, hw⟩ := hs
    cases hw
    exact h.newMap ((guard_eq_some' _).mp hg)
  | map j virt phys =>
    simp only [step, PageTables.step, interface, bind_eq_bind, bind_eq_some_iff, pure_def] at hs
    obtain ⟨_, hg, m, hm, s, hs, _, hlim, hw⟩ := hs
    cases hw
    obtain ⟨hv, hp⟩ := (guard_eq_some' _).mp hg
    obtain ⟨s', heq, h'⟩ := h.map hm hv hp
    cases heq.symm.trans hs
    exact h' ((guard_eq_some' _).mp hlim)
  | unmap j virt phys =>
    simp only [step, PageTables.step, interface, bind_eq_bind, bind_eq_some_iff, pure_def] at hs
    obtain ⟨_, hg, m, hm, s, hs, hw⟩ := hs
    cases hw
    obtain ⟨hv, hp⟩ := (guard_eq_some' _).mp hg
    obtain ⟨s', heq, h'⟩ := h.unmap hm hv hp
    cases heq.symm.trans hs
    exact ⟨frame, h'⟩

theorem start_inv {memory : ℕ → Fin 512 → ℕ} {init : Bool}
    (h : start F memory init = some w) : ∃ frame, WorldInv F init w frame := by
  cases init with
  | false =>
    simp only [start, PageTables.start, interface, Bool.false_eq_true, if_false, bind_eq_bind,
      Option.bind_some, bind_eq_some_iff, pure_def] at h
    obtain ⟨_, -, hw⟩ := h
    cases hw
    exact ⟨_, boot_inv F memory, (fun _ _ _ => rfl), (fun hc => by cases hc), fun _ _ _ _ => rfl⟩
  | true =>
    simp only [start, PageTables.start, interface, if_true, bind_eq_bind, bind_eq_some_iff, pure_def] at h
    obtain ⟨s, hs, _, hlim, hw⟩ := h
    cases hw
    refine ⟨_, archPtmInit_spec hs ((guard_eq_some' _).mp hlim), fun j v _ => ?_,
      (fun hc => by cases hc), fun _ _ _ _ => rfl⟩
    have hnone : kernelFrame s.higherHalfEntries (leafPlace true j v) = none := by
      by_contra hne
      obtain ⟨k, hk⟩ := exists_topPlace hne
      have hlen := length_leafPlace true j v
      rw [hk] at hlen
      cases hlen
    show (kernelFrame s.higherHalfEntries (leafPlace true j v)).elim _ _ = 0
    rw [hnone]
    rfl

theorem run_inv {memory : ℕ → Fin 512 → ℕ} {init : Bool} {w₀ : World}
    (h₀ : start F memory init = some w₀) {ops : List Op}
    (hrun : run (step F init) w₀ ops = some w) : ∃ frame, WorldInv F init w frame :=
  run_induction (fun _ _ _ h hs => step_inv h hs) (start_inv h₀) hrun

end

/-! ## A finite map -/

/-- The lookups of all pages but one are as before. -/
def OtherPages (F : FrameSupply) (w : World) (s : Ptm) (v : ℕ) : Prop :=
  ∀ j m v' o : ℕ, w.maps[j]? = some m → CanonicalPage v' → v' ≠ v → o < archPageGran →
    archPtmVirtToPhys F.frames s m (v' + o) = archPtmVirtToPhys F.frames w.ptm m (v' + o)

/-- The maps of a world are finite maps from pages to frames. -/
structure FiniteMap (F : FrameSupply) (w : World) : Prop where
  lookup : ∀ j m v o : ℕ, w.maps[j]? = some m → CanonicalPage v → o < archPageGran →
    archPtmVirtToPhys F.frames w.ptm m (v + o) = (w.view j v).elim badAddress (· + o)
  map : ∀ i m v phys : ℕ, w.maps[i]? = some m → CanonicalPage v → IsFrame phys →
    ∃ s, archPtmMap F.frames w.ptm m v phys archPageGran = some s ∧
      (s.taken ≤ F.limit → OtherPages F w s v)
  unmap : ∀ i m v phys : ℕ, w.maps[i]? = some m → CanonicalPage v → phys % archPageGran = 0 →
    ∃ s, archPtmUnmap F.frames w.ptm m v phys archPageGran = some s ∧ OtherPages F w s v

theorem WorldInv.otherPages {F : FrameSupply} {shared : Bool} {w : World}
    {frame frame' : Place → Option ℕ} (h : WorldInv F shared w frame) {s : Ptm} {i v : ℕ}
    {x : Option ℕ} (h' : WorldInv F shared ⟨s, w.maps, PageTables.setView shared w.view i v x⟩ frame') :
    OtherPages F w s v := by
  intro j m v' o hj hv' hne ho
  rw [h.lookup hj hv' ho, h'.lookup hj hv' ho]
  show (if v' = v ∧ _ then _ else _ : Option ℕ).elim _ _ = _
  rw [if_neg fun hc => hne hc.1]

/-- After every run, each lookup returns the frame last mapped at the page, and an operation on a
page leaves the lookups of all other pages as they were. -/
theorem ptm_run_finite_map {F : FrameSupply} {memory : ℕ → Fin 512 → ℕ}
    {init : Bool} {w₀ w : World} (h₀ : start F memory init = some w₀) {ops : List Op}
    (hrun : run (step F init) w₀ ops = some w) : FiniteMap F w := by
  obtain ⟨frame, h⟩ := run_inv h₀ hrun
  refine ⟨fun j m v o hj hv ho => h.lookup hj hv ho, ?_, ?_⟩
  · intro i m v phys hi hv hp
    obtain ⟨s, heq, h'⟩ := h.map hi hv hp
    refine ⟨s, heq, fun hlim => ?_⟩
    obtain ⟨frame', h'⟩ := h' hlim
    exact h.otherPages h'
  · intro i m v phys hi hv hp
    obtain ⟨s, heq, h'⟩ := h.unmap hi hv hp
    exact ⟨s, heq, h.otherPages h'⟩

def sampleSupply : FrameSupply where
  frames k := (k + 1) * 4096
  limit := 1000
  isFrame k hk := by
    unfold IsFrame archPageGran
    omega
  injective i _ k _ h := by omega

def sampleOps : List Op :=
  [.newMap, .map 0 0x400000 0x7000000, .newMap, .map 1 0x400000 0x8000000,
    .map 1 0xFFFF800000001000 0x9000000, .unmap 0 0xFFFF800000001000 0x9000000,
    .map 0 0xFFFF800000002000 0xA000000]

theorem ptm_run_finite_map_sample :
    ∃ w₀ w, start sampleSupply (fun _ _ => 0) true = some w₀ ∧
      run (step sampleSupply true) w₀ sampleOps = some w ∧ FiniteMap sampleSupply w := by
  obtain ⟨w₀, h₀, w, hrun, -⟩ : ∃ w₀ ∈ start sampleSupply (fun _ _ => 0) true,
      ∃ w ∈ run (step sampleSupply true) w₀ sampleOps, True := by decide +kernel
  exact ⟨w₀, w, h₀, hrun, ptm_run_finite_map h₀ hrun⟩

/-! ## Sharing and isolation -/

/-- The lower-half translations of all maps but map `i` are as before. -/
def OtherMaps (F : FrameSupply) (w : World) (s : Ptm) (i : ℕ) : Prop :=
  ∀ j m virt : ℕ, w.maps[j]? = some m → j ≠ i → virt ≤ archUserMaxVirt →
    archPtmVirtToPhys F.frames s m virt = archPtmVirtToPhys F.frames w.ptm m virt

/-- The maps of a world share the higher half and are isolated in the lower half. -/
structure Sharing (F : FrameSupply) (w : World) : Prop where
  distinct : w.maps.Nodup
  higher : ∀ m ∈ w.maps, ∀ m' ∈ w.maps, ∀ virt, archKernelMinVirt ≤ virt → virt ≤ archKernelMaxVirt →
    archPtmVirtToPhys F.frames w.ptm m virt = archPtmVirtToPhys F.frames w.ptm m' virt
  visible : ∀ m ∈ w.maps, ∀ v phys, CanonicalPage v → archKernelMinVirt ≤ v → IsFrame phys →
    ∃ s, archPtmMap F.frames w.ptm m v phys archPageGran = some s ∧ (s.taken ≤ F.limit →
      ∀ m' ∈ w.maps, ∀ o < archPageGran, archPtmVirtToPhys F.frames s m' (v + o) = phys + o)
  map : ∀ i m v phys : ℕ, w.maps[i]? = some m → CanonicalPage v → v ≤ archUserMaxVirt → IsFrame phys →
    ∃ s, archPtmMap F.frames w.ptm m v phys archPageGran = some s ∧
      (s.taken ≤ F.limit → OtherMaps F w s i)
  unmap : ∀ i m v phys : ℕ, w.maps[i]? = some m → CanonicalPage v → v ≤ archUserMaxVirt →
    phys % archPageGran = 0 →
    ∃ s, archPtmUnmap F.frames w.ptm m v phys archPageGran = some s ∧ OtherMaps F w s i

theorem exists_page {virt : ℕ} (h : Canonical virt) :
    ∃ v o, virt = v + o ∧ CanonicalPage v ∧ o < archPageGran ∧
      (archKernelMinVirt ≤ virt ↔ archKernelMinVirt ≤ v) := by
  refine ⟨virt / 4096 * 4096, virt % 4096, ?_, ⟨?_, ?_⟩, ?_, ?_⟩
  · omega
  · unfold Canonical at h ⊢
    omega
  · unfold archPageGran
    omega
  · unfold archPageGran
    omega
  · unfold archKernelMinVirt
    omega

theorem WorldInv.otherMaps {F : FrameSupply} {w : World} {frame frame' : Place → Option ℕ}
    (h : WorldInv F true w frame) {s : Ptm} {i v : ℕ} (hv : v ≤ archUserMaxVirt) {x : Option ℕ}
    (h' : WorldInv F true ⟨s, w.maps, PageTables.setView true w.view i v x⟩ frame') :
    OtherMaps F w s i := by
  intro j m virt hj hne hvirt
  have hcan : Canonical virt := Or.inl (by
    unfold archUserMaxVirt at hvirt
    omega)
  obtain ⟨v', o, rfl, hv', ho, -⟩ := exists_page hcan
  rw [h.lookup hj hv' ho, h'.lookup hj hv' ho]
  show (if v' = v ∧ (j = i ∨ SharedPage true v) then _ else _ : Option ℕ).elim _ _ = _
  rw [if_neg]
  rintro ⟨-, hji | hs⟩
  · exact hne hji
  · have := hs.2
    unfold archKernelMinVirt at this
    unfold archUserMaxVirt at hv
    omega

theorem WorldInv.nodup {F : FrameSupply} {shared : Bool} {w : World} {frame : Place → Option ℕ}
    (h : WorldInv F shared w frame) : w.maps.Nodup := by
  rw [List.nodup_iff_getElem?_ne_getElem?]
  intro i j hij hj heq
  obtain ⟨m, hm⟩ : ∃ m, w.maps[j]? = some m := ⟨_, List.getElem?_eq_getElem hj⟩
  have hplace := h.inv.layout.inj (h.inv.root_eq (heq.trans hm)) (h.inv.root_eq hm)
  exact Nat.ne_of_lt hij (Option.some.inj (Prod.mk.inj hplace).1)

/-- After `arch_ptm_init` and every run, every higher-half address translates identically in all
maps, and no map sees a lower-half operation of another. -/
theorem ptm_run_sharing {F : FrameSupply} {memory : ℕ → Fin 512 → ℕ}
    {w₀ w : World} (h₀ : start F memory true = some w₀) {ops : List Op}
    (hrun : run (step F true) w₀ ops = some w) : Sharing F w := by
  obtain ⟨frame, h⟩ := run_inv h₀ hrun
  refine ⟨h.nodup, ?_, ?_, ?_, ?_⟩
  · intro m hm m' hm' virt hmin hmax
    obtain ⟨i, hi⟩ := List.mem_iff_getElem?.mp hm
    obtain ⟨j, hj⟩ := List.mem_iff_getElem?.mp hm'
    have hcan : Canonical virt := Or.inr (by
      unfold archKernelMinVirt at hmin
      unfold archKernelMaxVirt at hmax
      omega)
    obtain ⟨v, o, rfl, hv, ho, hhalf⟩ := exists_page hcan
    rw [h.lookup hi hv ho, h.lookup hj hv ho, h.agree i j ⟨rfl, hhalf.mp hmin⟩]
  · intro m hm v phys hv hmin hp
    obtain ⟨i, hi⟩ := List.mem_iff_getElem?.mp hm
    obtain ⟨s, heq, h'⟩ := h.map hi hv hp
    refine ⟨s, heq, fun hlim m' hm' o ho => ?_⟩
    obtain ⟨frame', h'⟩ := h' hlim
    obtain ⟨j, hj⟩ := List.mem_iff_getElem?.mp hm'
    rw [h'.lookup hj hv ho]
    show (if v = v ∧ (j = i ∨ SharedPage true v) then _ else _ : Option ℕ).elim _ _ = _
    rw [if_pos ⟨rfl, Or.inr ⟨rfl, hmin⟩⟩]
    rfl
  · intro i m v phys hi hv hlow hp
    obtain ⟨s, heq, h'⟩ := h.map hi hv hp
    refine ⟨s, heq, fun hlim => ?_⟩
    obtain ⟨frame', h'⟩ := h' hlim
    exact h.otherMaps hlow h'
  · intro i m v phys hi hv hlow hp
    obtain ⟨s, heq, h'⟩ := h.unmap hi hv hp
    exact ⟨s, heq, h.otherMaps hlow h'⟩

theorem ptm_run_sharing_sample :
    ∃ w₀ w, start sampleSupply (fun _ _ => 0) true = some w₀ ∧
      run (step sampleSupply true) w₀ sampleOps = some w ∧ w.maps.length = 2 ∧
        Sharing sampleSupply w := by
  obtain ⟨w₀, h₀, w, hrun, hlen⟩ : ∃ w₀ ∈ start sampleSupply (fun _ _ => 0) true,
      ∃ w ∈ run (step sampleSupply true) w₀ sampleOps, w.maps.length = 2 := by decide +kernel
  exact ⟨w₀, w, h₀, hrun, hlen, ptm_run_sharing h₀ hrun⟩

end LykOS.X8664
