import LykOS.Arch.Types
import LykOS.Lib.Bytes

/-!
# The table of interrupt overrides

The loop over the entries of the MADT in `x86_64_ioapic_init` of `arch/x86_64/devices/ioapic.c`, on a
table of any bytes. Its steps and its stores come from the table without a check: it stays at an entry of
length 0 forever, reads the last entry beyond the end of the table, and stores at any `source`. A
destination has 16 bits of the 32 in an entry. `ioapic_init_right_iff` says for which tables none of this
happens.
-/

namespace LykOS.Ioapic

open Function List

/-- An element of `g_irq_redirection_table`. -/
structure Irq where
  dest : ℕ
  flags : ℕ
  deriving DecidableEq

section

-- the memory from the start of the table on
variable (hhdm : ℕ) (mem : ℕ → UInt8)

/-- `madt->sdt.length`. -/
def madtLength : ℕ := Bytes.le mem 4 4

/-- `sizeof(madt_t)`. -/
def sizeofMadt : ℕ := 44

/-- The fields of an entry, by the place where it starts. -/
def entryType (p : ℕ) : ℕ := (mem p).toNat
def entryLength (p : ℕ) : ℕ := (mem (p + 1)).toNat
def ioapicAddr (p : ℕ) : ℕ := Bytes.le mem (p + 4) 4
def source (p : ℕ) : ℕ := (mem (p + 3)).toNat
def gsi (p : ℕ) : ℕ := Bytes.le mem (p + 4) 4
def flags (p : ℕ) : ℕ := Bytes.le mem (p + 8) 2

def madtTypeIoapic : ℕ := 1
def madtTypeSourceOverride : ℕ := 2

/-- The bytes that a round reads: the header of the entry, and the fields that its type has. -/
def entryReads (p : ℕ) : List ℕ :=
  [p, p + 1] ++ if entryType mem p = madtTypeIoapic then List.range' (p + 4) 4
    else if entryType mem p = madtTypeSourceOverride then (p + 3) :: List.range' (p + 4) 6 else []

/-- The indices of `g_irq_redirection_table` that a round stores at. -/
def entryWrites (p : ℕ) : List ℕ :=
  if entryType mem p = madtTypeSourceOverride then [source mem p] else []

/-- The variables of the loop, and what it has read and where it has stored. -/
structure State where
  ptr : ℕ
  ioapicBase : ℕ
  table : ℕ → Irq
  reads : List ℕ
  writes : List ℕ

/-- A round of the loop. -/
def visit (s : State) : State where
  ptr := s.ptr + entryLength mem s.ptr
  ioapicBase :=
    if entryType mem s.ptr = madtTypeIoapic then u64 (ioapicAddr mem s.ptr + hhdm) else s.ioapicBase
  table :=
    if entryType mem s.ptr = madtTypeSourceOverride then
      update s.table (source mem s.ptr) ⟨gsi mem s.ptr % 2 ^ 16, flags mem s.ptr⟩
    else s.table
  reads := s.reads ++ entryReads mem s.ptr
  writes := s.writes ++ entryWrites mem s.ptr

/-- The loop, for less than `n` rounds. -/
def entryLoop : ℕ → State → Option State
  | 0, _ => none
  | n + 1, s => if s.ptr < madtLength mem then entryLoop n (visit hhdm mem s) else some s

/-- Before the loop each IRQ has its own number. -/
def start : State := ⟨sizeofMadt, 0, fun i => ⟨i, 0⟩, [], []⟩

/-! ## What is expected -/

/-- From the place `p` on, the loop comes to the entry `q`. -/
inductive From : ℕ → ℕ → Prop
  | here {p : ℕ} : p < madtLength mem → From p p
  | next {p q : ℕ} : p < madtLength mem → From (p + entryLength mem p) q → From p q

/-- The entries of the table. -/
def Entry (p : ℕ) : Prop := From mem sizeofMadt p

def Overrides (i p : ℕ) : Prop := entryType mem p = madtTypeSourceOverride ∧ source mem p = i

/-- The last override of an IRQ, from `p` on. -/
def Last (p i q : ℕ) : Prop :=
  From mem p q ∧ Overrides mem i q ∧ ∀ q', From mem p q' → Overrides mem i q' → q' ≤ q

/-- All accesses are inside, and each IRQ has what its last override says, or its own number. -/
structure Parsed (s : State) : Prop where
  reads : ∀ a ∈ s.reads, a < madtLength mem
  writes : ∀ i ∈ s.writes, i < 16
  last : ∀ i < 16, ∀ p, Last mem sizeofMadt i p → s.table i = ⟨gsi mem p, flags mem p⟩
  default : ∀ i < 16, (∀ p, Entry mem p → ¬ Overrides mem i p) → s.table i = ⟨i, 0⟩

def InitRight : Prop := ∃ n s, entryLoop hhdm mem n start = some s ∧ Parsed mem s

/-- An entry that the loop can pass over: it is complete, is not empty, and overrides a legacy IRQ if any.
-/
structure EntryOk (p : ℕ) : Prop where
  header : p + 1 < madtLength mem
  moves : entryLength mem p ≠ 0
  ioapic : entryType mem p = madtTypeIoapic → p + 8 ≤ madtLength mem
  override : entryType mem p = madtTypeSourceOverride → p + 10 ≤ madtLength mem ∧ source mem p < 16

end

/-! ## The loop -/

section

variable {hhdm : ℕ} {mem : ℕ → UInt8} {s s' : State} {p q n : ℕ}

theorem From.le (h : From mem p q) : p ≤ q := by
  induction h with
  | here _ => exact Nat.le_refl _
  | next _ _ ih => exact Nat.le_trans (Nat.le_add_right ..) ih

theorem from_iff (hp : p < madtLength mem) : From mem p q ↔ q = p ∨ From mem (p + entryLength mem p) q := by
  constructor
  · intro h
    cases h with
    | here _ => exact .inl rfl
    | next _ h => exact .inr h
  · rintro (rfl | h)
    · exact .here hp
    · exact .next hp h

theorem not_from (hp : ¬ p < madtLength mem) : ¬ From mem p q := fun h => by
  cases h with
  | here h | next h _ => exact hp h

theorem entryOk_iff : EntryOk mem p ↔ (∀ a ∈ entryReads mem p, a < madtLength mem) ∧
    (∀ i ∈ entryWrites mem p, i < 16) ∧ entryLength mem p ≠ 0 := by
  have hmem : ∀ a k, a ∈ List.range' (p + 4) k ↔ p + 4 ≤ a ∧ a < p + 4 + k := fun a k => mem_range'_1
  constructor
  · rintro ⟨hheader, hmoves, hioapic, hover⟩
    refine ⟨fun a ha => ?_, fun i hi => ?_, hmoves⟩
    · unfold entryReads at ha
      split_ifs at ha with h1 h2
      · have := hioapic h1
        simp only [cons_append, nil_append, mem_cons, hmem] at ha
        omega
      · have := hover h2
        simp only [cons_append, nil_append, mem_cons, hmem] at ha
        omega
      · simp only [List.append_nil, mem_cons, not_mem_nil, or_false] at ha
        omega
    · unfold entryWrites at hi
      split_ifs at hi with h2
      · rw [mem_singleton.mp hi]
        exact (hover h2).2
      · exact absurd hi not_mem_nil
  · rintro ⟨hreads, hwrites, hmoves⟩
    refine ⟨hreads _ (by simp [entryReads]), hmoves, fun h1 => ?_, fun h2 => ⟨?_, hwrites _ ?_⟩⟩
    · exact hreads (p + 7) (by simp [entryReads, h1, hmem])
    · have h1 : entryType mem p ≠ madtTypeIoapic := by rw [h2]; decide
      exact hreads (p + 9) (by rw [entryReads, if_neg h1, if_pos h2]; simp [hmem])
    · simp [entryWrites, h2]

theorem entryLoop_stuck (n : ℕ) (hp : s.ptr < madtLength mem) (hzero : entryLength mem s.ptr = 0) :
    entryLoop hhdm mem n s = none := by
  induction n generalizing s with
  | zero => rfl
  | succ n ih =>
    have hptr : (visit hhdm mem s).ptr = s.ptr := by rw [visit, hzero, Nat.add_zero]
    rw [entryLoop, if_pos hp]
    exact ih (hptr ▸ hp) (hptr ▸ hzero)

/-- What the loop leaves, from any place on. -/
structure Effect (mem : ℕ → UInt8) (s s' : State) : Prop where
  moves : ∀ q, From mem s.ptr q → entryLength mem q ≠ 0
  reads : ∀ a, a ∈ s'.reads ↔ a ∈ s.reads ∨ ∃ q, From mem s.ptr q ∧ a ∈ entryReads mem q
  writes : ∀ i, i ∈ s'.writes ↔ i ∈ s.writes ∨ ∃ q, From mem s.ptr q ∧ i ∈ entryWrites mem q
  kept : ∀ i, (∀ q, From mem s.ptr q → ¬ Overrides mem i q) → s'.table i = s.table i
  last : ∀ i q, Last mem s.ptr i q → s'.table i = ⟨gsi mem q % 2 ^ 16, flags mem q⟩

theorem Effect.visit (hp : s.ptr < madtLength mem) (hmoves : entryLength mem s.ptr ≠ 0)
    (h : Effect mem (visit hhdm mem s) s') : Effect mem s s' := by
  have hfrom : ∀ q, From mem s.ptr q ↔ q = s.ptr ∨ From mem (Ioapic.visit hhdm mem s).ptr q := fun q =>
    from_iff hp
  refine ⟨fun q hq => ?_, fun a => ?_, fun i => ?_, fun i hno => ?_, fun i q hlast => ?_⟩
  · rcases (hfrom q).mp hq with rfl | hq
    · exact hmoves
    · exact h.moves q hq
  · simp only [h.reads, hfrom, Ioapic.visit, mem_append, or_assoc, or_and_right, exists_or, exists_eq_left]
  · simp only [h.writes, hfrom, Ioapic.visit, mem_append, or_assoc, or_and_right, exists_or, exists_eq_left]
  · rw [h.kept i fun q hq => hno q ((hfrom q).mpr (.inr hq))]
    dsimp only [Ioapic.visit]
    split_ifs with htype
    · exact update_of_ne (fun heq => hno s.ptr (.here hp) ⟨htype, heq.symm⟩) ..
    · rfl
  · obtain ⟨hq, hover, hmax⟩ := hlast
    rcases (hfrom q).mp hq with rfl | hq
    · -- what comes later is further behind, so it overrides other IRQs
      rw [h.kept i]
      · dsimp only [Ioapic.visit]
        rw [if_pos hover.1, ← hover.2, update_self]
      · intro q' hq' hover'
        have hle := hmax q' ((hfrom q').mpr (.inr hq')) hover'
        have hge : s.ptr + entryLength mem s.ptr ≤ q' := hq'.le
        omega
    · exact h.last i q ⟨hq, hover, fun q' hq' => hmax q' ((hfrom q').mpr (.inr hq'))⟩

theorem entryLoop_effect (h : entryLoop hhdm mem n s = some s') : Effect mem s s' := by
  induction n generalizing s with
  | zero => cases h
  | succ n ih =>
    rw [entryLoop] at h
    split_ifs at h with hp
    · refine (ih h).visit hp fun hzero => ?_
      have hptr : (visit hhdm mem s).ptr = s.ptr := by rw [visit, hzero, Nat.add_zero]
      rw [entryLoop_stuck n (hptr ▸ hp) (hptr ▸ hzero)] at h
      cases h
    · have hno : ∀ q, ¬ From mem s.ptr q := fun q => not_from hp
      cases h
      exact ⟨fun q hq => absurd hq (hno q), by simp [hno], by simp [hno], fun _ _ => rfl,
        fun _ q hq => absurd hq.1 (hno q)⟩

theorem entryLoop_total (hmoves : ∀ q, From mem s.ptr q → entryLength mem q ≠ 0)
    (hn : madtLength mem - s.ptr < n) : ∃ s', entryLoop hhdm mem n s = some s' := by
  induction n generalizing s with
  | zero => exact absurd hn (Nat.not_lt_zero _)
  | succ n ih =>
    rw [entryLoop]
    split_ifs with hp
    · have hpos := hmoves s.ptr (.here hp)
      refine ih (fun q hq => hmoves q (.next hp hq)) ?_
      show madtLength mem - (s.ptr + entryLength mem s.ptr) < n
      omega
    · exact ⟨s, rfl⟩

end

/-- For every content of the table, the loop ends, stays inside the table and the array, and leaves the last
overrides exactly if it can pass over all entries and no last override has a number of more than 16 bits. -/
theorem ioapic_init_right_iff (hhdm : ℕ) (mem : ℕ → UInt8) :
    InitRight hhdm mem ↔ (∀ p, Entry mem p → EntryOk mem p) ∧
      ∀ i < 16, ∀ p, Last mem sizeofMadt i p → gsi mem p < 2 ^ 16 := by
  constructor
  · rintro ⟨n, s, hloop, hparsed⟩
    have heffect := entryLoop_effect hloop
    refine ⟨fun p hp => entryOk_iff.mpr ⟨fun a ha => ?_, fun i hi => ?_, heffect.moves p hp⟩,
      fun i hi p hlast => ?_⟩
    · exact hparsed.reads a ((heffect.reads a).mpr (.inr ⟨p, hp, ha⟩))
    · exact hparsed.writes i ((heffect.writes i).mpr (.inr ⟨p, hp, hi⟩))
    · have heq := (heffect.last i p hlast).symm.trans (hparsed.last i hi p hlast)
      rw [← (Irq.mk.inj heq).1]
      exact Nat.mod_lt _ (by decide)
  · rintro ⟨hok, hgsi⟩
    obtain ⟨s, hloop⟩ := @entryLoop_total hhdm mem start _ (fun q hq => (hok q hq).moves)
      (Nat.lt_succ_self _)
    have heffect := entryLoop_effect hloop
    refine ⟨_, s, hloop, fun a ha => ?_, fun i hi => ?_, fun i hi p hlast => ?_, fun i _ hno => ?_⟩
    · rcases (heffect.reads a).mp ha with ha | ⟨q, hq, ha⟩
      · exact absurd ha not_mem_nil
      · exact (entryOk_iff.mp (hok q hq)).1 a ha
    · rcases (heffect.writes i).mp hi with hi | ⟨q, hq, hi⟩
      · exact absurd hi not_mem_nil
      · exact (entryOk_iff.mp (hok q hq)).2.1 i hi
    · rw [heffect.last i p hlast, Nat.mod_eq_of_lt (hgsi i hi p hlast)]
    · exact heffect.kept i hno

/-- A table of 46 bytes, which ends with an entry of length 0. -/
def emptyEntry : ℕ → UInt8 := fun a => if a = 4 then 46 else 0

/-- The loop does not get past an entry of length 0. -/
theorem empty_entry_loops :
    (∀ n, entryLoop 0 emptyEntry n start = none) ∧ ¬ InitRight 0 emptyEntry := by
  have hstuck : ∀ n, entryLoop 0 emptyEntry n start = none := fun n =>
    entryLoop_stuck n (by decide) (by decide)
  refine ⟨hstuck, fun ⟨n, s, hloop, _⟩ => ?_⟩
  rw [hstuck] at hloop
  cases hloop

end LykOS.Ioapic
