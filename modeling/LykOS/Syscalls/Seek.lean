import LykOS.Lib.Run
import LykOS.Syscalls.Create

/-!
# Seeking

`syscall_seek` adds a signed displacement to a base in unsigned arithmetic and compares the sum with
the size of the file. For a size below `2 ^ 63` and a base that is no larger this is right: a sum
that is negative, or behind the end, is above the size also modulo `2 ^ 64` (`seekOffset_le_iff`).
The stored offset is such a base: it is never above the size in a run of calls that do not shrink a
file (`seek_right`).
-/

namespace LykOS.Syscalls

open Run

section

variable {V S F σ : Type}

/-- The offset of `syscall_seek`, read as a signed number. -/
def displacement (offset : UInt64) : ℤ := offset.toInt64.toInt

/-- What the displacement is added to, for `SEEK_SET`, `SEEK_CUR` and `SEEK_END`. -/
def seekBase (cur size : UInt64) (whence : ℤ) : Option ℤ :=
  match whence with
  | 0 => some 0
  | 1 => some cur.toNat
  | 2 => some size.toNat
  | _ => none

/-- The call goes to the position that is asked for if it is one of the file, and returns it;
otherwise it returns `EINVAL` and changes nothing. -/
structure SeekExact (B : Backend V S σ) (st : State V σ) (fd : ℤ) (res : Resource V) (node : V)
    (offset : UInt64) (whence : ℤ) : Prop where
  moves : ∀ base, seekBase res.offset (B.size st.kernel node) whence = some base →
    0 ≤ base + displacement offset → base + displacement offset ≤ (B.size st.kernel node).toNat →
    ∃ pos table, syscallSeek B st fd offset whence = some (⟨pos, eok⟩, { st with table }) ∧
      (pos.toNat : ℤ) = base + displacement offset ∧
      table.resources = st.table.resources.set fd.toNat (some { res with offset := pos })
  refuses : (∀ base, seekBase res.offset (B.size st.kernel node) whence = some base →
      ¬ (0 ≤ base + displacement offset ∧
        base + displacement offset ≤ (B.size st.kernel node).toNat)) →
    syscallSeek B st fd offset whence = some (⟨0, einval⟩, st)

/-- No stored offset is behind the end of its file. -/
def State.Inside (B : Backend V S σ) (st : State V σ) : Prop :=
  ∀ fd res node, st.table.slot fd = some (some res) → res.node = some node →
    res.offset ≤ B.size st.kernel node

inductive FileCall
  | opens (path : ℕ) (flags mode : ℤ)
  | seek (fd : ℤ) (offset : UInt64) (whence : ℤ)
  | read (fd : ℤ) (buf : ℕ) (count : UInt64)
  | write (fd : ℤ) (buf : ℕ) (count : UInt64)

def fileCall (B : Backend V S σ) (O : Opener V S F σ) (st : State V σ) :
    FileCall → Option (SysRet × State V σ)
  | .opens path flags mode => syscallOpen O st path flags mode
  | .seek fd offset whence => syscallSeek B st fd offset whence
  | .read fd buf count => syscallRead B st fd buf count
  | .write fd buf count => syscallWrite B st fd buf count

def fileStep (B : Backend V S σ) (O : Opener V S F σ) (st : State V σ) (c : FileCall) :
    Option (State V σ) :=
  (fileCall B O st c).map Prod.snd

/-- The call makes no file smaller. -/
def Grows (B : Backend V S σ) (O : Opener V S F σ) (st : State V σ) (c : FileCall) : Prop :=
  ∀ st', fileStep B O st c = some st' → ∀ node, B.size st.kernel node ≤ B.size st'.kernel node

/-! ## The arithmetic -/

theorem displacement_eq (offset : UInt64) :
    displacement offset = if offset.toNat < 2 ^ 63 then (offset.toNat : ℤ) else offset.toNat - 2 ^ 64 := by
  show offset.toBitVec.toInt = _
  rw [BitVec.toInt_eq_toNat_cond]
  show (if 2 * offset.toNat < 2 ^ 64 then (offset.toNat : ℤ) else offset.toNat - (2 ^ 64 : ℕ)) = _
  split_ifs <;> omega

theorem add_displacement {base offset size : UInt64} (hbase : base.toNat < 2 ^ 63)
    (hsize : size.toNat < 2 ^ 63) :
    (base + offset ≤ size ↔
      0 ≤ base.toNat + displacement offset ∧ base.toNat + displacement offset ≤ size.toNat) ∧
      (base + offset ≤ size → ((base + offset).toNat : ℤ) = base.toNat + displacement offset) := by
  have hlt := offset.toNat_lt
  rw [displacement_eq, UInt64.le_iff_toNat_le, UInt64.toNat_add]
  split_ifs <;> omega

theorem seekOffset_le_iff {cur size offset : UInt64} {whence : ℤ} (hcur : cur.toNat < 2 ^ 63)
    (hsize : size.toNat < 2 ^ 63) :
    (seekOffset cur size offset whence = none ∧ seekBase cur size whence = none) ∨
      ∃ pos base, seekOffset cur size offset whence = some pos ∧ seekBase cur size whence = some base ∧
        (pos ≤ size ↔ 0 ≤ base + displacement offset ∧ base + displacement offset ≤ size.toNat) ∧
        (pos ≤ size → (pos.toNat : ℤ) = base + displacement offset) := by
  by_cases h0 : whence = 0
  · have h := @add_displacement 0 offset size (by decide) hsize
    rw [UInt64.zero_add] at h
    rw [h0]
    exact Or.inr ⟨offset, 0, rfl, rfl, h⟩
  by_cases h1 : whence = 1
  · rw [h1]
    exact Or.inr ⟨cur + offset, cur.toNat, rfl, rfl, add_displacement hcur hsize⟩
  by_cases h2 : whence = 2
  · rw [h2]
    exact Or.inr ⟨size + offset, size.toNat, rfl, rfl, add_displacement hsize hsize⟩
  · refine Or.inl ⟨?_, ?_⟩
    · unfold seekOffset
      split <;> trivial
    · unfold seekBase
      split <;> trivial

/-! ## One call -/

variable {B : Backend V S σ} {O : Opener V S F σ} {st st' : State V σ} {fd : ℤ} {res : Resource V}
  {node : V}

theorem withNode_of_slot {call : Resource V → V → Option (SysRet × State V σ)}
    (hslot : st.table.slot fd = some (some res)) (hnode : res.node = some node) :
    withNode st fd (fun _ => True) call = call res node := by
  rw [withNode, resourceGet_of_slot hslot, Option.bind_eq_bind, Option.bind_some]
  dsimp only
  rw [if_neg (not_not.mpr trivial), hnode]

theorem syscallSeek_of_slot (hfd : 2 < fd) (hslot : st.table.slot fd = some (some res))
    (hnode : res.node = some node) (offset : UInt64) (whence : ℤ) :
    syscallSeek B st fd offset whence =
      match seekOffset res.offset (B.size st.kernel node) offset whence with
      | none => fails st einval
      | some newOffset =>
        if newOffset > B.size st.kernel node then fails st einval
        else (st.table.setSlot fd (some { res with offset := newOffset })).map fun table =>
          (⟨newOffset, eok⟩, { st with table }) := by
  unfold syscallSeek
  rw [if_neg (by omega)]
  exact withNode_of_slot hslot hnode

theorem syscallSeek_exact (hfd : 2 < fd) (hslot : st.table.slot fd = some (some res))
    (hnode : res.node = some node) (hsize : (B.size st.kernel node).toNat < 2 ^ 63)
    (hoff : res.offset.toNat < 2 ^ 63) (offset : UInt64) (whence : ℤ) :
    SeekExact B st fd res node offset whence := by
  have hseek := syscallSeek_of_slot (B := B) hfd hslot hnode offset whence
  obtain ⟨ho, hb⟩ | ⟨pos, base, ho, hb, hiff, hpos⟩ :=
    @seekOffset_le_iff _ _ offset whence hoff hsize
  · rw [ho] at hseek
    refine ⟨fun base h => ?_, fun _ => hseek⟩
    cases hb.symm.trans h
  · rw [ho] at hseek
    dsimp only at hseek
    refine ⟨fun base' h hlo hhi => ?_, fun h => ?_⟩
    · cases hb.symm.trans h
      have hle := hiff.mpr ⟨hlo, hhi⟩
      obtain ⟨table, htable, hset⟩ := Table.setSlot_of_inRange (Table.inRange_of_slot hslot)
        (some { res with offset := pos })
      rw [if_neg (UInt64.not_lt.mpr hle), htable] at hseek
      exact ⟨pos, table, hseek, hpos hle, hset⟩
    · have hgt : pos > B.size st.kernel node := UInt64.not_le.mp fun hle => h base hb (hiff.mp hle)
      rwa [if_pos hgt] at hseek

/-! ## Runs -/

/-- What a call does to the table: a resource was there before, or is new, or its offset has been
found in its file. -/
inductive Kept (B : Backend V S σ) (st st' : State V σ) (fd : ℤ) (res : Resource V) : Prop
  | old (h : st.table.slot fd = some (some res))
  | new (h : res.offset = 0)
  | sought (hkernel : st'.kernel = st.kernel)
      (h : ∀ node, res.node = some node → res.offset ≤ B.size st.kernel node)

theorem syscallOpen_kept {path : ℕ} {flags mode : ℤ} {ret : SysRet}
    (h : syscallOpen O st path flags mode = some (ret, st'))
    (hres : st'.table.slot fd = some (some res)) : Kept B st st' fd res := by
  unfold syscallOpen at h
  dsimp only at h
  split at h
  · cases h
    exact .old hres
  · obtain ⟨id, t', heq, hc⟩ := resourceCreateAny_spec st.table (O.vfsOpen st.kernel path).2.1 0 readWrite
    rw [heq] at h
    cases h
    rcases hc.slot with ⟨hempty, hset⟩ | ⟨-, rfl⟩
    · by_cases hfd : fd = id
      · subst hfd
        obtain ⟨-, hslot, -⟩ := hc.slot_of_hasEmpty ⟨id, hempty⟩
        cases hslot.symm.trans hres
        exact .new rfl
      · exact .old ((Table.slot_set hset fd hfd).symm.trans hres)
    · exact .old hres

theorem syscallSeek_kept {fd' : ℤ} {offset : UInt64} {whence : ℤ} {ret : SysRet}
    (h : syscallSeek B st fd' offset whence = some (ret, st'))
    (hres : st'.table.slot fd = some (some res)) : Kept B st st' fd res := by
  unfold syscallSeek at h
  split at h
  · cases h
    exact .old hres
  · revert h
    refine withNode_cases (P := fun r => r = some (ret, st') → _) ?_ fun res' node hslot hnode h => ?_
    · rintro ⟨⟩
      exact .old hres
    split at h
    · cases h
      exact .old hres
    · next newOffset _ =>
      split at h
      · cases h
        exact .old hres
      · next hle =>
        obtain ⟨t', ht', heq⟩ := Option.map_eq_some_iff.mp h
        cases heq
        obtain ⟨i, rfl⟩ := Int.eq_ofNat_of_zero_le (Table.inRange_of_slot hslot).1
        obtain ⟨t'', ht'', hset⟩ := Table.setSlot_of_inRange (Table.inRange_of_slot hslot)
          (some { res' with offset := newOffset })
        cases ht'.symm.trans ht''
        by_cases hfd : fd = i
        · subst hfd
          rw [Int.toNat_natCast] at hset
          rw [Table.slot_natCast] at hslot hres
          rw [hset, List.getElem?_set_self (List.getElem?_eq_some_iff.mp hslot).1] at hres
          cases hres
          refine .sought rfl fun node' hnode' => ?_
          cases hnode.symm.trans hnode'
          exact UInt64.not_lt.mp hle
        · exact .old ((Table.slot_set hset fd hfd).symm.trans hres)

theorem withNode_table {allowed : UInt8 → Prop} [DecidablePred allowed]
    {call : Resource V → V → Option (SysRet × State V σ)} {ret : SysRet} {fd : ℤ}
    (hcall : ∀ res node ret st', call res node = some (ret, st') → st'.table = st.table)
    (h : withNode st fd allowed call = some (ret, st')) : st'.table = st.table := by
  revert h
  refine withNode_cases (P := fun r => r = some (ret, st') → _) ?_ fun res node _ _ h => ?_
  · rintro ⟨⟩
    rfl
  · exact hcall res node ret st' h

theorem fileStep_kept {c : FileCall} (h : fileStep B O st c = some st')
    (hres : st'.table.slot fd = some (some res)) : Kept B st st' fd res := by
  obtain ⟨⟨ret, _⟩, hcall, rfl⟩ := Option.map_eq_some_iff.mp h
  cases c with
  | opens path flags mode =>
    rw [fileCall] at hcall
    exact syscallOpen_kept hcall hres
  | seek fd' offset whence => exact syscallSeek_kept hcall hres
  | read fd' buf count =>
    rw [fileCall, syscallRead] at hcall
    rw [withNode_table (fun _ _ _ _ h => by cases h; rfl) hcall] at hres
    exact .old hres
  | write fd' buf count =>
    rw [fileCall, syscallWrite] at hcall
    split at hcall
    · cases hcall
      exact .old hres
    · rw [withNode_table (fun _ _ _ _ h => by cases h; rfl) hcall] at hres
      exact .old hres

theorem inside_of_step {c : FileCall} (hin : st.Inside B) (hgrows : Grows B O st c)
    (h : fileStep B O st c = some st') : st'.Inside B := by
  intro fd res node hres hnode
  have hle := hgrows st' h node
  cases fileStep_kept h hres with
  | old hold => exact UInt64.le_trans (hin fd res node hold hnode) hle
  | new hzero =>
    rw [hzero, UInt64.le_iff_toNat_le]
    exact Nat.zero_le _
  | sought hkernel hsought =>
    rw [hkernel]
    exact hsought node hnode

/-- In a run of calls that shrink no file, every offset is inside its file, and seeking is exact for
every descriptor above 2 of a file below `2 ^ 63` bytes. -/
theorem seek_right (B : Backend V S σ) (O : Opener V S F σ) {start st : State V σ} {calls : List FileCall}
    (hstart : start.Inside B) (hgrows : Meets (fileStep B O) (Grows B O) start calls)
    (hrun : run (fileStep B O) start calls = some st) :
    st.Inside B ∧ ∀ fd res node, 2 < fd → st.table.slot fd = some (some res) → res.node = some node →
      (B.size st.kernel node).toNat < 2 ^ 63 → ∀ offset whence, SeekExact B st fd res node offset whence := by
  have hin : st.Inside B := run_induction_of_meets (fun _ _ _ => inside_of_step) hstart hgrows hrun
  refine ⟨hin, fun fd res node hfd hslot hnode hsize offset whence => ?_⟩
  have hle := UInt64.le_iff_toNat_le.mp (hin fd res node hslot hnode)
  exact syscallSeek_exact hfd hslot hnode hsize (by omega) offset whence

end

def emptySlots : State Unit Unit := ⟨⟨List.replicate 4 none, by decide⟩, ()⟩

def seekRun : List FileCall := List.replicate 4 (.opens 0 0 0) ++ [.seek 3 (-2) 2]

theorem seek_right_sample :
    ∃ st, emptySlots.Inside oneFile ∧
      Meets (fileStep oneFile oneOpener) (Grows oneFile oneOpener) emptySlots seekRun ∧
      run (fileStep oneFile oneOpener) emptySlots seekRun = some st ∧
      st.table.slot 3 = some (some ⟨some (), 6, 3⟩) ∧
      ∀ offset whence, SeekExact oneFile st 3 ⟨some (), 6, 3⟩ () offset whence := by
  have hstart : emptySlots.Inside oneFile := by
    intro fd res node hres _
    unfold Table.slot emptySlots at hres
    split at hres
    · cases hres
    · rw [List.getElem?_replicate] at hres
      split at hres <;> cases hres
  have hgrows : Meets (fileStep oneFile oneOpener) (Grows oneFile oneOpener) emptySlots seekRun :=
    meets_of_step (I := fun _ => True) (fun _ _ _ _ _ _ _ => UInt64.le_refl 8) (fun _ _ _ _ _ _ => trivial)
      trivial (meets_true emptySlots seekRun)
  obtain ⟨st, hrun, hslot⟩ : ∃ st ∈ run (fileStep oneFile oneOpener) emptySlots seekRun,
      st.table.slot 3 = some (some ⟨some (), 6, 3⟩) := by decide +kernel
  obtain ⟨-, hexact⟩ := seek_right oneFile oneOpener hstart hgrows hrun
  exact ⟨st, hstart, hgrows, hrun, hslot,
    hexact 3 ⟨some (), 6, 3⟩ () (by decide) hslot rfl (show (8 : UInt64).toNat < 2 ^ 63 by decide)⟩

end LykOS.Syscalls
