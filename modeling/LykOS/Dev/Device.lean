import Mathlib.Data.List.Nodup
import Mathlib.Data.List.Perm.Basic

/-!
# Devices and drivers of a bus

`bus_register_driver` probes the devices that are there and sets up those that match. `bus_register_device`
probes the drivers that are there and stops at the first that matches, but sets nothing up. So a device is
set up by matching drivers that are registered after it only (`setups_run`). Exactly one setup of each
device that has a matching driver is a condition on the order (`bound_once_iff`), and holds in every order
only where there is nothing to bind (`bound_in_any_order_iff`).
-/

namespace LykOS.Device

open List

variable {δ γ : Type} [DecidableEq δ]

/-- The functions of a `driver_t` that a bus calls: `probe_device`, which may be missing, and whether
`setup_device` stores the driver in the device. -/
structure Driver (δ : Type) where
  probeDevice : Option (δ → Bool)
  binds : δ → Bool

inductive Call (δ γ : Type) where
  | probe (g : γ) (d : δ)
  | setup (g : γ) (d : δ)
  deriving DecidableEq

/-- `bus_t`, with the field `driver` of the devices and the calls made so far. -/
structure Bus (δ γ : Type) where
  devices : List δ
  drivers : List γ
  driver : δ → Option γ
  calls : List (Call δ γ)

/-- `bus_init`, for devices with the given field `driver`. -/
def busInit (driver : δ → Option γ) : Bus δ γ := ⟨[], [], driver, []⟩

variable (drv : γ → Driver δ)

/-- The loop of `bus_register_device` over the drivers. -/
def deviceLoop (d : δ) : List γ → List (Call δ γ)
  | [] => []
  | g :: gs =>
    match (drv g).probeDevice with
    | none => []
    | some probe => .probe g d :: if probe d then [] else deviceLoop d gs

def busRegisterDevice (b : Bus δ γ) (d : δ) : Bus δ γ :=
  { b with
    devices := b.devices ++ [d]
    calls := b.calls ++ if b.driver d = none then deviceLoop drv d b.drivers else [] }

def setupDevice (b : Bus δ γ) (g : γ) (d : δ) : Bus δ γ :=
  { b with
    driver := fun d' => if d' = d ∧ (drv g).binds d then some g else b.driver d'
    calls := b.calls ++ [.setup g d] }

/-- The body of the loop of `bus_register_driver` over the devices. -/
def driverVisit (g : γ) (b : Bus δ γ) (d : δ) : Bus δ γ :=
  if b.driver d ≠ none then b
  else
    match (drv g).probeDevice with
    | none => b
    | some probe =>
      let b := { b with calls := b.calls ++ [.probe g d] }
      if probe d then setupDevice drv b g d else b

def busRegisterDriver (b : Bus δ γ) (g : γ) : Bus δ γ :=
  b.devices.foldl (driverVisit drv g) { b with drivers := b.drivers ++ [g] }

inductive Reg (δ γ : Type) where
  | device (d : δ)
  | driver (g : γ)
  deriving DecidableEq

def register (b : Bus δ γ) : Reg δ γ → Bus δ γ
  | .device d => busRegisterDevice drv b d
  | .driver g => busRegisterDriver drv b g

/-- The drivers that have set up device `d`, in the order of their calls. -/
def setups (b : Bus δ γ) (d : δ) : List γ :=
  b.calls.filterMap fun
    | .setup g d' => if d' = d then some g else none
    | .probe _ _ => none

def Matches (g : γ) (d : δ) : Prop := ∃ probe ∈ (drv g).probeDevice, probe d = true

instance (g : γ) (d : δ) : Decidable (Matches drv g d) :=
  inferInstanceAs (Decidable (∃ probe ∈ (drv g).probeDevice, probe d = true))

def matching (d : δ) (regs : List (Reg δ γ)) : List γ :=
  regs.filterMap fun
    | .driver g => if Matches drv g d then some g else none
    | .device _ => none

def later (d : δ) : List (Reg δ γ) → List γ
  | [] => []
  | .device d' :: regs => if d' = d then matching drv d regs else later d regs
  | .driver _ :: regs => later d regs

/-- The drivers of the list that come to set up the device: all up to the first that stores itself in it,
if there is none in it at first. -/
def served (d : δ) : Option γ → List γ → List γ
  | some _, _ => []
  | none, [] => []
  | none, g :: gs => g :: served d (if (drv g).binds d then some g else none) gs

/-- Some registered driver matches the device. -/
def Wanted (regs : List (Reg δ γ)) (d : δ) : Prop := ∃ g, .driver g ∈ regs ∧ Matches drv g d

/-- Once all are registered, each device that some driver matches has been set up once, by one of these,
and the others have not been. -/
structure BoundOnce (b : Bus δ γ) (regs : List (Reg δ γ)) : Prop where
  once : ∀ d, .device d ∈ regs → Wanted drv regs d →
    ∃ g, .driver g ∈ regs ∧ Matches drv g d ∧ setups b d = [g]
  never : ∀ d, ¬(.device d ∈ regs ∧ Wanted drv regs d) → setups b d = []

/-! ## What one registration does -/

@[simp] theorem setups_probe (b : Bus δ γ) (g : γ) (d d' : δ) :
    setups { b with calls := b.calls ++ [.probe g d'] } d = setups b d := by
  simp [setups]

theorem setups_setupDevice (b : Bus δ γ) (g : γ) (d d' : δ) :
    setups (setupDevice drv b g d') d = setups b d ++ if d' = d then [g] else [] := by
  by_cases h : d' = d <;> simp [setups, setupDevice, h]

variable {d : δ} {regs : List (Reg δ γ)} {g : γ} {b : Bus δ γ} {gs : List γ}

omit [DecidableEq δ] in
theorem deviceLoop_probes (d : δ) {c : Call δ γ} (hc : c ∈ deviceLoop drv d gs) :
    ∃ g, c = .probe g d := by
  induction gs with
  | nil => simp [deviceLoop] at hc
  | cons g gs ih =>
    unfold deviceLoop at hc
    split at hc
    · simp at hc
    · rcases mem_cons.mp hc with rfl | hc
      · exact ⟨g, rfl⟩
      · split at hc
        · simp at hc
        · exact ih hc

theorem setups_busRegisterDevice (b : Bus δ γ) (d d' : δ) :
    setups (busRegisterDevice drv b d') d = setups b d := by
  simp only [setups, busRegisterDevice, filterMap_append, append_right_eq_self, filterMap_eq_nil_iff]
  intro c hc
  split at hc
  · obtain ⟨g, rfl⟩ := deviceLoop_probes drv d' hc
    rfl
  · simp at hc

theorem driverVisit_of_match (hnone : b.driver d = none) (hm : Matches drv g d) :
    driverVisit drv g b d = setupDevice drv { b with calls := b.calls ++ [.probe g d] } g d := by
  obtain ⟨probe, hp, hd⟩ := hm
  rw [Option.mem_def] at hp
  simp [driverVisit, hnone, hp, hd]

theorem driverVisit_of_not (h : ¬(b.driver d = none ∧ Matches drv g d)) :
    driverVisit drv g b d = b ∨ driverVisit drv g b d = { b with calls := b.calls ++ [.probe g d] } := by
  unfold driverVisit
  split_ifs with hnone
  · exact Or.inl rfl
  · cases hp : (drv g).probeDevice with
    | none => exact Or.inl rfl
    | some probe =>
      have hd : ¬probe d = true := fun hd => h ⟨not_not.mp hnone, probe, hp, hd⟩
      simp [hd]

theorem driverVisit_spec (g : γ) (b : Bus δ γ) (d d' : δ) :
    setups (driverVisit drv g b d') d =
        setups b d ++ (if d' = d ∧ b.driver d = none ∧ Matches drv g d then [g] else []) ∧
      (driverVisit drv g b d').driver d =
        if d' = d ∧ (b.driver d = none ∧ Matches drv g d) ∧ (drv g).binds d then some g
        else b.driver d := by
  by_cases hd : d' = d
  · subst hd
    by_cases h : b.driver d' = none ∧ Matches drv g d'
    · rw [driverVisit_of_match drv h.1 h.2, setups_setupDevice, setups_probe]
      simp [h, setupDevice]
    · rcases driverVisit_of_not drv h with heq | heq <;> simp [heq, h]
  · by_cases h : b.driver d' = none ∧ Matches drv g d'
    · rw [driverVisit_of_match drv h.1 h.2, setups_setupDevice, setups_probe]
      simp [hd, Ne.symm hd, setupDevice]
    · rcases driverVisit_of_not drv h with heq | heq <;> simp [heq, hd]

theorem driverVisit_devices (g : γ) (b : Bus δ γ) (d : δ) :
    (driverVisit drv g b d).devices = b.devices := by
  by_cases h : b.driver d = none ∧ Matches drv g d
  · rw [driverVisit_of_match drv h.1 h.2]
    rfl
  · rcases driverVisit_of_not drv h with heq | heq <;> rw [heq]

theorem driverVisit_foldl (g : γ) {ds : List δ} (hds : ds.Nodup) (b : Bus δ γ) (d : δ) :
    setups (ds.foldl (driverVisit drv g) b) d =
        setups b d ++ (if d ∈ ds ∧ b.driver d = none ∧ Matches drv g d then [g] else []) ∧
      (ds.foldl (driverVisit drv g) b).driver d =
        if d ∈ ds ∧ (b.driver d = none ∧ Matches drv g d) ∧ (drv g).binds d then some g
        else b.driver d := by
  induction ds generalizing b with
  | nil => simp
  | cons d' ds ih =>
    obtain ⟨hnotin, hds⟩ := nodup_cons.mp hds
    obtain ⟨hset, hdrv⟩ := driverVisit_spec drv g b d d'
    rw [foldl_cons, (ih hds _).1, (ih hds _).2, hset, hdrv]
    by_cases hd : d' = d
    · subst hd
      simp [hnotin]
    · simp [hd, Ne.symm hd]

theorem busRegisterDriver_spec (b : Bus δ γ) (hb : b.devices.Nodup) (g : γ) (d : δ) :
    setups (busRegisterDriver drv b g) d =
        setups b d ++ (if d ∈ b.devices ∧ b.driver d = none ∧ Matches drv g d then [g] else []) ∧
      (busRegisterDriver drv b g).driver d =
        if d ∈ b.devices ∧ (b.driver d = none ∧ Matches drv g d) ∧ (drv g).binds d then some g
        else b.driver d :=
  driverVisit_foldl drv g hb { b with drivers := b.drivers ++ [g] } d

theorem busRegisterDriver_devices (b : Bus δ γ) (g : γ) :
    (busRegisterDriver drv b g).devices = b.devices := by
  have hloop : ∀ (ds : List δ) (b : Bus δ γ),
      (ds.foldl (driverVisit drv g) b).devices = b.devices := by
    intro ds
    induction ds with
    | nil => exact fun _ => rfl
    | cons d ds ih =>
      intro b
      rw [foldl_cons, ih, driverVisit_devices]
  exact hloop _ _

/-! ## Any number of registrations -/

omit [DecidableEq δ] in
theorem matching_cons_driver (d : δ) (g : γ) (regs : List (Reg δ γ)) :
    matching drv d (.driver g :: regs) =
      (if Matches drv g d then [g] else []) ++ matching drv d regs := by
  by_cases h : Matches drv g d <;> simp [matching, h]

structure Fresh (b : Bus δ γ) (regs : List (Reg δ γ)) : Prop where
  nodup : regs.Nodup
  devices : b.devices.Nodup
  new : ∀ d, .device d ∈ regs → d ∉ b.devices

omit [DecidableEq δ] in
theorem Fresh.device (h : Fresh b (.device d :: regs)) : Fresh (busRegisterDevice drv b d) regs := by
  obtain ⟨hd, hregs⟩ := nodup_cons.mp h.nodup
  have hnotin : d ∉ b.devices := h.new d mem_cons_self
  refine ⟨hregs, h.devices.append (nodup_singleton d) (by simpa using hnotin), fun e he hmem => ?_⟩
  rcases mem_append.mp hmem with hmem | hmem
  · exact h.new e (mem_cons_of_mem _ he) hmem
  · rw [mem_singleton.mp hmem] at he
    exact hd he

theorem Fresh.driver (h : Fresh b (.driver g :: regs)) : Fresh (busRegisterDriver drv b g) regs := by
  have hdev := busRegisterDriver_devices drv b g
  exact ⟨(nodup_cons.mp h.nodup).2, hdev ▸ h.devices,
    fun e he => hdev ▸ h.new e (mem_cons_of_mem _ he)⟩

theorem setups_present (h : Fresh b regs) (hd : d ∈ b.devices) :
    setups (regs.foldl (register drv) b) d =
      setups b d ++ served drv d (b.driver d) (matching drv d regs) := by
  induction regs generalizing b with
  | nil => cases b.driver d <;> simp [matching, served]
  | cons r regs ih =>
    rw [foldl_cons]
    cases r with
    | device d' =>
      rw [register, ih (h.device drv) (mem_append_left _ hd), setups_busRegisterDevice]
      rfl
    | driver g =>
      have hd' : d ∈ (busRegisterDriver drv b g).devices := busRegisterDriver_devices drv b g ▸ hd
      obtain ⟨hset, hdrv⟩ := busRegisterDriver_spec drv b h.devices g d
      rw [register, ih (h.driver drv) hd', hset, hdrv, matching_cons_driver, append_assoc]
      congr 1
      by_cases hm : Matches drv g d
      · cases hb : b.driver d with
        | none => by_cases hbind : (drv g).binds d <;> simp [hd, hm, hbind, served]
        | some g' => simp [served]
      · simp [hm]

theorem setups_run (h : Fresh b regs) (hd : d ∉ b.devices) :
    setups (regs.foldl (register drv) b) d =
      setups b d ++ served drv d (b.driver d) (later drv d regs) := by
  induction regs generalizing b with
  | nil => cases b.driver d <;> simp [later, served]
  | cons r regs ih =>
    rw [foldl_cons]
    cases r with
    | device d' =>
      by_cases heq : d' = d
      · subst heq
        have hd' : d' ∈ (busRegisterDevice drv b d').devices := by simp [busRegisterDevice]
        rw [register, setups_present drv (h.device drv) hd', setups_busRegisterDevice]
        simp [later, busRegisterDevice]
      · have hd' : d ∉ (busRegisterDevice drv b d').devices := by
          simp [busRegisterDevice, hd, Ne.symm heq]
        rw [register, ih (h.device drv) hd', setups_busRegisterDevice]
        simp [later, heq, busRegisterDevice]
    | driver g =>
      have hd' : d ∉ (busRegisterDriver drv b g).devices := busRegisterDriver_devices drv b g ▸ hd
      obtain ⟨hset, hdrv⟩ := busRegisterDriver_spec drv b h.devices g d
      rw [register, ih (h.driver drv) hd', hset, hdrv]
      simp [later, hd]

omit [DecidableEq δ] in
theorem mem_matching : g ∈ matching drv d regs ↔ .driver g ∈ regs ∧ Matches drv g d := by
  simp only [matching, mem_filterMap]
  constructor
  · rintro ⟨r, hr, hg⟩
    cases r with
    | device d' => simp at hg
    | driver g' =>
      obtain ⟨hm, rfl⟩ := (Option.ite_none_right_eq_some.mp hg).imp_right Option.some.inj
      exact ⟨hr, hm⟩
  · rintro ⟨hr, hm⟩
    exact ⟨.driver g, hr, by simp [hm]⟩

theorem mem_later (h : g ∈ later drv d regs) :
    .device d ∈ regs ∧ .driver g ∈ regs ∧ Matches drv g d := by
  induction regs with
  | nil => simp [later] at h
  | cons r regs ih =>
    cases r with
    | device d' =>
      unfold later at h
      split_ifs at h with heq
      · obtain ⟨hg, hm⟩ := (mem_matching drv).mp h
        exact ⟨heq ▸ mem_cons_self, mem_cons_of_mem _ hg, hm⟩
      · obtain ⟨hd, hg, hm⟩ := ih h
        exact ⟨mem_cons_of_mem _ hd, mem_cons_of_mem _ hg, hm⟩
    | driver g' =>
      obtain ⟨hd, hg, hm⟩ := ih h
      exact ⟨mem_cons_of_mem _ hd, mem_cons_of_mem _ hg, hm⟩

omit [DecidableEq δ] in
theorem served_eq_nil {o : Option γ} : served drv d o gs = [] ↔ o ≠ none ∨ gs = [] := by
  cases o <;> cases gs <;> simp [served]

omit [DecidableEq δ] in
theorem served_eq_singleton {o : Option γ} :
    served drv d o gs = [g] ↔
      o = none ∧ ∃ gs', gs = g :: gs' ∧ ((drv g).binds d = true ∨ gs' = []) := by
  cases o with
  | some g' => simp [served]
  | none =>
    cases gs with
    | nil => simp [served]
    | cons g' gs' =>
      rw [served, cons_eq_cons, served_eq_nil]
      constructor
      · rintro ⟨rfl, h⟩
        exact ⟨rfl, gs', rfl, by simpa using h⟩
      · rintro ⟨-, gs'', heq, h⟩
        obtain ⟨rfl, rfl⟩ := List.cons.inj heq
        exact ⟨rfl, by simpa using h⟩

theorem setups_init (h : regs.Nodup) (driver : δ → Option γ) (d : δ) :
    setups (regs.foldl (register drv) (busInit driver)) d =
      served drv d (driver d) (later drv d regs) :=
  setups_run drv ⟨h, nodup_nil, fun _ _ => not_mem_nil⟩ not_mem_nil

/-- Registered in a given order, each device that some driver matches is set up exactly once, and the others
never, if and only if each of them has no driver stored at first, some matching driver is registered after
it, and the first of these stores itself in the device or is the only one. -/
theorem bound_once_iff {regs : List (Reg δ γ)} (h : regs.Nodup) (driver : δ → Option γ) :
    BoundOnce drv (regs.foldl (register drv) (busInit driver)) regs ↔
      ∀ d, .device d ∈ regs → Wanted drv regs d → driver d = none ∧
        ∃ g gs, later drv d regs = g :: gs ∧ ((drv g).binds d = true ∨ gs = []) := by
  constructor
  · intro hb d hd hw
    obtain ⟨g, -, -, hg⟩ := hb.once d hd hw
    rw [setups_init drv h, served_eq_singleton] at hg
    exact ⟨hg.1, g, hg.2⟩
  · intro hc
    refine ⟨fun d hd hw => ?_, fun d hd => ?_⟩
    · obtain ⟨hnone, g, gs, hlater, hg⟩ := hc d hd hw
      obtain ⟨-, hreg, hm⟩ := mem_later drv (hlater ▸ mem_cons_self : g ∈ later drv d regs)
      refine ⟨g, hreg, hm, ?_⟩
      rw [setups_init drv h, served_eq_singleton]
      exact ⟨hnone, gs, hlater, hg⟩
    · rw [setups_init drv h, served_eq_nil]
      refine Or.inr (eq_nil_iff_forall_not_mem.mpr fun g hg => hd ?_)
      obtain ⟨hdev, hreg, hm⟩ := mem_later drv hg
      exact ⟨hdev, g, hreg, hm⟩

omit [DecidableEq δ] in
theorem matching_devices (d : δ) (h : ∀ r ∈ regs, ∃ d, r = .device d) : matching drv d regs = [] := by
  refine eq_nil_iff_forall_not_mem.mpr fun g hg => ?_
  obtain ⟨d', hd'⟩ := h _ ((mem_matching drv).mp hg).1
  cases hd'

theorem later_drivers_first (d : δ) {gs ds : List (Reg δ γ)} (hgs : ∀ r ∈ gs, ∃ g, r = .driver g)
    (hds : ∀ r ∈ ds, ∃ d, r = .device d) : later drv d (gs ++ ds) = [] := by
  induction gs with
  | cons r gs ih =>
    obtain ⟨g, rfl⟩ := hgs r mem_cons_self
    exact ih fun r hr => hgs r (mem_cons_of_mem _ hr)
  | nil =>
    induction ds with
    | nil => rfl
    | cons r ds ih =>
      obtain ⟨d', rfl⟩ := hds r mem_cons_self
      have hrest : ∀ r ∈ ds, ∃ d, r = .device d := fun r hr => hds r (mem_cons_of_mem _ hr)
      rw [nil_append] at ih ⊢
      rw [later, matching_devices drv d hrest, ih hrest, ite_self]

def Reg.isDriver : Reg δ γ → Bool
  | .device _ => false
  | .driver _ => true

/-- The devices and drivers are bound the same way in any order of registration only if none of the drivers
matches any of the devices. -/
theorem bound_in_any_order_iff (h : regs.Nodup) (driver : δ → Option γ) :
    (∀ regs' : List (Reg δ γ), regs'.Perm regs →
        BoundOnce drv (regs'.foldl (register drv) (busInit driver)) regs') ↔
      ∀ d, .device d ∈ regs → ¬Wanted drv regs d := by
  constructor
  · intro hall d hd hw
    have hperm := filter_append_perm Reg.isDriver regs
    obtain ⟨g, hg, hm⟩ := hw
    obtain ⟨g', -, -, hset⟩ := (hall _ hperm).once d (hperm.mem_iff.mpr hd) ⟨g, hperm.mem_iff.mpr hg, hm⟩
    have hdrivers : ∀ r ∈ regs.filter Reg.isDriver, ∃ g, r = .driver g := by
      rintro (d | g) hr
      · simp [Reg.isDriver] at hr
      · exact ⟨g, rfl⟩
    have hdevices : ∀ r ∈ regs.filter fun r => !r.isDriver, ∃ d, r = .device d := by
      rintro (d | g) hr
      · exact ⟨d, rfl⟩
      · simp [Reg.isDriver] at hr
    rw [setups_init drv (hperm.nodup_iff.mpr h), later_drivers_first drv d hdrivers hdevices,
      (served_eq_nil drv).mpr (Or.inr rfl)] at hset
    cases hset
  · intro hnone regs' hperm
    have hno : ∀ d, .device d ∈ regs' → ¬Wanted drv regs' d := fun d hd ⟨g, hg, hm⟩ =>
      hnone d (hperm.mem_iff.mp hd) ⟨g, hperm.mem_iff.mp hg, hm⟩
    refine ⟨fun d hd hw => absurd hw (hno d hd), fun d _ => ?_⟩
    rw [setups_init drv (hperm.nodup_iff.mpr h), served_eq_nil]
    refine Or.inr (eq_nil_iff_forall_not_mem.mpr fun g hg => ?_)
    obtain ⟨hd, hreg, hm⟩ := mem_later drv hg
    exact hno d hd ⟨g, hreg, hm⟩

theorem bound_in_any_order_sample :
    let drv : Unit → Driver Unit := fun _ => ⟨some fun _ => true, fun _ => true⟩
    ¬ ∀ regs' : List (Reg Unit Unit), regs'.Perm [.device (), .driver ()] →
      BoundOnce drv (regs'.foldl (register drv) (busInit fun _ => none)) regs' :=
  fun h => (bound_in_any_order_iff _ (by decide) _).mp h () (by decide) ⟨(), by decide, _, rfl, rfl⟩

/-! ## The AHCI driver -/

/-- The fields of `pci_header_common_t` that the probe reads. -/
structure PciHeaderCommon where
  classCode : UInt8
  subclass : UInt8
  progIf : UInt8
  deriving DecidableEq

/-- `device_t`: a name to tell devices apart, and `hardware_data`. -/
structure Dev where
  name : ℕ
  hardwareData : Option PciHeaderCommon
  deriving DecidableEq

def ahciProbeDevice (d : Dev) : Bool :=
  match d.hardwareData with
  | none => false
  | some h => h.classCode = 1 ∧ h.subclass = 6 ∧ h.progIf = 1

/-- `ahci_driver`. Its `setup_device` does not store the driver in the device. -/
def ahciDriver : Driver Dev := ⟨some ahciProbeDevice, fun _ => false⟩

def controller : Dev := ⟨0, some ⟨1, 6, 1⟩⟩

/-- A controller, and then its driver. -/
theorem bound_once_ahci :
    BoundOnce (fun _ : Unit => ahciDriver)
      ([.device controller, .driver ()].foldl (register fun _ => ahciDriver) (busInit fun _ => none))
      [.device controller, .driver ()] := by
  refine (bound_once_iff _ (by decide) _).mpr fun d hd _ => ⟨rfl, (), [], ?_, Or.inr rfl⟩
  obtain rfl : d = controller := by simpa using hd
  decide

def controllerSetups (regs : List (Reg Dev (Fin 2))) : List (Fin 2) :=
  setups (regs.foldl (register fun _ => ahciDriver) (busInit fun _ => none)) controller

/-- The driver first: the controller is never set up. Two drivers after it: it is set up twice. -/
theorem order_changes_setups :
    controllerSetups [.device controller, .driver 0] = [0] ∧
      controllerSetups [.driver 0, .device controller] = [] ∧
      controllerSetups [.device controller, .driver 0, .driver 1] = [0, 1] ∧
      ¬BoundOnce (fun _ : Fin 2 => ahciDriver)
        ([.driver 0, .device controller].foldl (register fun _ => ahciDriver) (busInit fun _ => none))
        [.driver 0, .device controller] := by
  have hnone : controllerSetups [.driver 0, .device controller] = [] := by decide
  refine ⟨by decide, hnone, by decide, fun hb => ?_⟩
  obtain ⟨g, -, -, hg⟩ := hb.once controller (by decide) ⟨0, by decide, by decide⟩
  cases hnone.symm.trans hg

end LykOS.Device
