import LykOS.Fs.Initrd.Entry

/-!
# From header to header

The loop of `initrd_init` goes from a header to the next one by a distance that is computed in 32 bits from
the size field. For sizes near 4 GiB the distance wraps around, to 0 or to one header, and larger sizes are
cut (`advance_eq_iff`). The scan moves from entry to entry, and so comes to its end, only if all sizes are
below that, and then it does, if `process_entry`, which works on the name in place, does not get to the size
field: the name ends before it, and there is no slash in it (`scan_right_iff`).
-/

namespace LykOS.Initrd

open CStr Vfs Pathname List
open Option hiding guard

/-- The state of the loop: the memory of the archive, the nodes and `hdr`. -/
structure Scan where
  mem : List UInt8
  tree : Ramdisk
  hdr : ℕ

/-- `ustar_read_field(hdr->size, 12)`. -/
def readSize (mem : List UInt8) (hdr : ℕ) : Option UInt64 :=
  ustarReadField 12 0 (mem.drop (hdr + sizeField))

/-- A round of the loop that goes on to the next header. -/
def scanStep (address : ℕ) (s : Scan) : Option Scan := do
  guard ((← atEnd s.mem s.hdr) = false)
  guard ((← memStrcmp ustarMagic (s.mem.drop (s.hdr + magicField))) = 0)
  let (mem, tree) ← processEntry address s.mem s.tree s.hdr
  let size ← readSize mem s.hdr
  return ⟨mem, tree, s.hdr + advance size⟩

def scanAfter (address : ℕ) : ℕ → Scan → Option Scan
  | 0, s => some s
  | n + 1, s => (scanStep address s).bind (scanAfter address n)

/-- The distance to the next header behind a file of this size. -/
def entryLength (size : ℕ) : ℕ := 512 * (1 + (size + 511) / 512)

/-- Each round of the scan goes to the header behind the file that the size field tells. -/
def Moves (address : ℕ) (start : Scan) : Prop :=
  ∀ n s s', scanAfter address n start = some s → scanStep address s = some s' →
    ∃ size, readSize s.mem s.hdr = some size ∧ s'.hdr = s.hdr + entryLength size.toNat

/-- The scan moves from header to header, so it comes to its end, and no header is inside a file. -/
structure ScanRight (address : ℕ) (start : Scan) : Prop where
  moves : Moves address start
  ends : ∃ n, scanAfter address n start = none
  apart : ∀ m n s s', m < n → scanAfter address m start = some s → scanAfter address n start = some s' →
    ∃ size, readSize s.mem s.hdr = some size ∧ s.hdr + 512 + size.toNat ≤ s'.hdr

/-- The size is one that the loop can compute with. -/
def SizeFits (mem : List UInt8) (hdr : ℕ) : Prop :=
  ∃ size, readSize mem hdr = some size ∧ size.toNat ≤ 2 ^ 32 - 1024

/-- The name ends in front of the size field, and there is no slash in the field. -/
structure PlainHeader (mem : List UInt8) (hdr : ℕ) : Prop where
  name : ∃ k < sizeField, mem[hdr + k]? = some 0
  size : ∀ k < 12, mem[hdr + sizeField + k]? ≠ some slash

/-- `P` holds of the memory and the header in front of every round. -/
def EveryRound (address : ℕ) (start : Scan) (P : List UInt8 → ℕ → Prop) : Prop :=
  ∀ n s s', scanAfter address n start = some s → scanStep address s = some s' → P s.mem s.hdr

/-! ## The distance -/

theorem advance_lt (size : UInt64) : advance size < 2 ^ 32 := UInt32.toNat_lt _

theorem advance_eq_iff (size : UInt64) :
    advance size = entryLength size.toNat ↔ size.toNat ≤ 2 ^ 32 - 1024 := by
  have hlt := size.toNat_lt
  rw [advance_mod, entryLength]
  omega

/-! ## A round -/

section

variable {address : ℕ} {s s' : Scan}

theorem length_normalizeLoop {fuel p n : ℕ} {mem : List UInt8} {r : List UInt8 × ℕ}
    (h : normalizeLoop fuel mem p n = some r) : r.1.length = mem.length := by
  induction fuel generalizing mem p n with
  | zero => cases h
  | succ fuel ih =>
    rw [normalizeLoop] at h
    obtain ⟨c, -, h⟩ := bind_eq_some_iff.mp h
    split_ifs at h
    · cases h
      rfl
    · obtain ⟨_, -, h⟩ := bind_eq_some_iff.mp h
      rw [ih h, length_set]
    · exact ih h
    · exact ih h
    · obtain ⟨_, -, h⟩ := bind_eq_some_iff.mp h
      rw [ih h, length_set]

theorem length_cutSlash (mem : List UInt8) (path : ℕ) : (cutSlash mem path).length = mem.length := by
  unfold cutSlash
  split
  · exact length_set
  · rfl

theorem walkLoop_cases {fuel : ℕ} {mem : List UInt8} {ns : Nodes} {curr path : ℕ}
    {r : List UInt8 × Nodes × ℕ} (h : walkLoop (fuel + 1) mem ns curr path = some r) :
    r.1 = mem ∨ r.1 = cutSlash mem path ∨ ∃ ns' next, walkLoop fuel (cutSlash mem path) ns' next
      (path + (strAt (cutSlash mem path) path).chars.length + 1) = some r := by
  rw [walkLoop] at h
  obtain ⟨c, -, h⟩ := bind_eq_some_iff.mp h
  split_ifs at h
  · cases h
    exact Or.inl rfl
  · obtain ⟨_, -, h⟩ := bind_eq_some_iff.mp h
    obtain ⟨⟨st, out, ns'⟩, -, h⟩ := bind_eq_some_iff.mp h
    dsimp only at h
    split_ifs at h
    · obtain ⟨next, -, h⟩ := bind_eq_some_iff.mp h
      exact Or.inr (Or.inr ⟨ns', next, h⟩)
    · cases h
      exact Or.inr (Or.inl rfl)

/-- What `cutSlash` keeps, the walk keeps. -/
theorem walkLoop_keeps {P : List UInt8 → Prop} (hcut : ∀ mem p, P mem → P (cutSlash mem p))
    {fuel curr path : ℕ} {mem : List UInt8} {ns : Nodes} {r : List UInt8 × Nodes × ℕ}
    (h : walkLoop fuel mem ns curr path = some r) (hmem : P mem) : P r.1 := by
  induction fuel generalizing mem ns curr path with
  | zero => cases h
  | succ fuel ih =>
    rcases walkLoop_cases h with heq | heq | ⟨ns', next, h⟩
    · rwa [heq]
    · rw [heq]
      exact hcut mem path hmem
    · exact ih h (hcut mem path hmem)

theorem processEntry_mem {mem mem' : List UInt8} {t t' : Ramdisk} {hdr : ℕ}
    (h : processEntry address mem t hdr = some (mem', t')) :
    ∃ mem₁ ns curr, pathNormalize mem hdr hdr = some mem₁ ∧
      walkLoop (mem₁.length + 1) mem₁ t.nodes rootNode hdr = some (mem', ns, curr) := by
  obtain ⟨mem₁, hnorm, h⟩ := bind_eq_some_iff.mp h
  obtain ⟨_, -, h⟩ := bind_eq_some_iff.mp h
  obtain ⟨_, -, h⟩ := bind_eq_some_iff.mp h
  obtain ⟨_, -, h⟩ := bind_eq_some_iff.mp h
  obtain ⟨_, -, h⟩ := bind_eq_some_iff.mp h
  obtain ⟨_, -, h⟩ := bind_eq_some_iff.mp h
  obtain ⟨⟨mem₂, ns, curr⟩, hwalk, h⟩ := bind_eq_some_iff.mp h
  obtain ⟨_, -, h⟩ := bind_eq_some_iff.mp h
  cases h
  exact ⟨mem₁, ns, curr, hnorm, hwalk⟩

theorem length_processEntry {mem mem' : List UInt8} {t t' : Ramdisk} {hdr : ℕ}
    (h : processEntry address mem t hdr = some (mem', t')) : mem'.length = mem.length := by
  obtain ⟨mem₁, ns, curr, hnorm, hwalk⟩ := processEntry_mem h
  obtain ⟨⟨mem₀, n⟩, hloop, hnorm⟩ := bind_eq_some_iff.mp hnorm
  obtain ⟨_, -, hnorm⟩ := bind_eq_some_iff.mp hnorm
  cases hnorm
  have hlen := walkLoop_keeps (P := fun m => m.length = mem.length)
    (fun m p hm => (length_cutSlash m p).trans hm) hwalk
  exact hlen (by rw [length_set, length_normalizeLoop hloop])

theorem scanStep_some (h : scanStep address s = some s') :
    s.hdr + magicField < s.mem.length ∧
      (∃ tree, processEntry address s.mem s.tree s.hdr = some (s'.mem, tree)) ∧
      s'.mem.length = s.mem.length ∧
      ∃ size, readSize s'.mem s.hdr = some size ∧ s'.hdr = s.hdr + advance size := by
  obtain ⟨stop, hstop, h⟩ := bind_eq_some_iff.mp h
  obtain ⟨_, -, h⟩ := bind_eq_some_iff.mp h
  obtain ⟨_, -, h⟩ := bind_eq_some_iff.mp h
  obtain ⟨_, -, h⟩ := bind_eq_some_iff.mp h
  obtain ⟨⟨mem, tree⟩, hentry, h⟩ := bind_eq_some_iff.mp h
  obtain ⟨size, hsize, h⟩ := bind_eq_some_iff.mp h
  cases h
  obtain ⟨c, hc, -⟩ := bind_eq_some_iff.mp hstop
  exact ⟨(List.getElem?_eq_some_iff.mp hc).1, ⟨tree, hentry⟩, length_processEntry hentry, size, hsize, rfl⟩

theorem ustarReadField_ne_none {size : ℕ} {n : UInt64} {str : List UInt8} (hlen : size ≤ str.length) :
    ustarReadField size n str ≠ none := by
  induction size generalizing n str with
  | zero => exact some_ne_none n
  | succ size ih =>
    cases str with
    | nil => cases hlen
    | cons c str =>
      rw [ustarReadField]
      split_ifs
      · exact some_ne_none _
      · exact ih (Nat.le_of_succ_le_succ hlen)

theorem readSize_of_step (h : scanStep address s = some s') :
    ∃ size, readSize s.mem s.hdr = some size := by
  have hlt := (scanStep_some h).1
  refine ne_none_iff_exists'.mp (ustarReadField_ne_none ?_)
  rw [length_drop]
  unfold magicField sizeField at *
  omega

theorem sizeFits_of_moves (h : scanStep address s = some s') {size : UInt64}
    (hsize : readSize s.mem s.hdr = some size) (hmoves : s'.hdr = s.hdr + entryLength size.toNat) :
    SizeFits s.mem s.hdr := by
  obtain ⟨-, -, -, after, -, hhdr⟩ := scanStep_some h
  have hlt := advance_lt after
  refine ⟨size, hsize, ?_⟩
  unfold entryLength at hmoves
  omega

end

/-! ## The name -/

section

variable {mem rest : List UInt8} {p e : ℕ}

theorem length_strAt_le (hpe : p ≤ e) (he : mem[e]? = some 0) : (strAt mem p).chars.length ≤ e - p := by
  obtain ⟨k, rfl⟩ := Nat.exists_eq_add_of_le hpe
  rw [Nat.add_sub_cancel_left]
  by_contra hlt
  have hk : k < ((mem.drop p).takeWhile (· ≠ 0)).length := Nat.lt_of_not_le hlt
  have hget : ((mem.drop p).takeWhile (· ≠ 0))[k]? = some 0 := by
    rw [getElem?_eq_getElem hk, ( takeWhile_prefix _).getElem hk, ← getElem?_eq_getElem, getElem?_drop, he]
  exact absurd rfl ((strAt mem p).no_nul 0 (mem_of_getElem? hget))

theorem getElem?_cutSlash {k : ℕ} (hk : mem[k]? ≠ some slash) (p : ℕ) : (cutSlash mem p)[k]? = mem[k]? := by
  unfold cutSlash
  split
  case h_1 i hi =>
    obtain ⟨j, hj, rfl⟩ := map_eq_some_iff.mp hi
    obtain ⟨hlt, hslash, -⟩ := findIdx?_eq_some_iff_getElem.mp hj
    refine getElem?_set_ne ?_
    rintro rfl
    refine hk ?_
    have hget : ((mem.drop p).takeWhile (· ≠ 0))[j] = slash := eq_of_beq hslash
    rw [← getElem?_drop, ← hget, ( takeWhile_prefix _).getElem hlt, ← getElem?_eq_getElem]
  case h_2 => rfl

/-- The walk writes over slashes only. -/
theorem getElem?_walkLoop {fuel k curr p : ℕ} {ns : Nodes} {r : List UInt8 × Nodes × ℕ}
    (h : walkLoop fuel mem ns curr p = some r) (hk : mem[k]? ≠ some slash) : r.1[k]? = mem[k]? := by
  refine walkLoop_keeps (P := fun m => m[k]? = mem[k]?) (fun m p hm => ?_) h rfl
  rw [getElem?_cutSlash (by rwa [hm]), hm]

theorem ustarReadField_congr {size : ℕ} {n : UInt64} {str str' : List UInt8}
    (h : ∀ k < size, str[k]? = str'[k]?) : ustarReadField size n str = ustarReadField size n str' := by
  induction size generalizing n str str' with
  | zero => rfl
  | succ size ih =>
    have hhead := h 0 (Nat.succ_pos size)
    have htail : ∀ n, ustarReadField size n str.tail = ustarReadField size n str'.tail := fun n =>
      ih fun k hk => by
        rw [getElem?_tail, getElem?_tail]
        exact h (k + 1) (Nat.succ_lt_succ hk)
    cases str <;> cases str' <;> cases hhead
    · rfl
    · exact if_congr Iff.rfl rfl (htail _)

/-- `process_entry` does not get to the size field of a plain header. -/
theorem readSize_kept {address : ℕ} {s s' : Scan} (h : scanStep address s = some s')
    (hplain : PlainHeader s.mem s.hdr) : readSize s'.mem s.hdr = readSize s.mem s.hdr := by
  obtain ⟨hlt, ⟨tree, hentry⟩, -, -⟩ := scanStep_some h
  obtain ⟨mem₁, ns, curr, hnorm, hwalk⟩ := processEntry_mem hentry
  obtain ⟨e, he, hnul⟩ := hplain.name
  have hlen := length_strAt_le (Nat.le_add_right s.hdr e) hnul
  have hmem : 0 ∈ s.mem.drop s.hdr := mem_of_getElem? (getElem?_drop.trans hnul)
  obtain ⟨rest, hdrop⟩ := memStr_eq_some_iff.mp (if_pos hmem)
  obtain ⟨mem₂, _, hnorm', -, -, -, hframe⟩ := pathNormalize_spec (strAt s.mem s.hdr).no_nul hdrop
    (Or.inl (Nat.le_refl _)) (by unfold magicField sizeField at *; omega)
  cases hnorm.symm.trans hnorm'
  have hfield := hframe (s.hdr + sizeField) (by omega) (by omega)
  refine ustarReadField_congr fun k hk => ?_
  have hkeep : mem₁[s.hdr + sizeField + k]? = s.mem[s.hdr + sizeField + k]? := by
    rw [← getElem?_drop, hfield, getElem?_drop]
  rw [getElem?_drop, getElem?_drop, getElem?_walkLoop hwalk (by rw [hkeep]; exact hplain.size k hk), hkeep]

theorem moves_of_fits {address : ℕ} {s s' : Scan} (h : scanStep address s = some s')
    (hplain : PlainHeader s.mem s.hdr) (hfits : SizeFits s.mem s.hdr) :
    ∃ size, readSize s.mem s.hdr = some size ∧ s'.hdr = s.hdr + entryLength size.toNat := by
  obtain ⟨-, -, -, after, hafter, hhdr⟩ := scanStep_some h
  obtain ⟨size, hsize, hle⟩ := hfits
  rw [readSize_kept h hplain, hsize] at hafter
  rw [← Option.some.inj hafter, (advance_eq_iff size).mpr hle] at hhdr
  exact ⟨size, hsize, hhdr⟩

end

/-! ## The scan -/

section

variable {address : ℕ} {start s s' : Scan}

theorem scanAfter_succ (n : ℕ) (start : Scan) :
    scanAfter address (n + 1) start = (scanAfter address n start).bind (scanStep address) := by
  induction n generalizing start with
  | zero =>
    show (scanStep address start).bind some = scanStep address start
    rw [bind_fun_some]
  | succ n ih =>
    show (scanStep address start).bind (scanAfter address (n + 1)) =
      ((scanStep address start).bind (scanAfter address n)).bind (scanStep address)
    rw [bind_assoc]
    exact Option.bind_congr fun s _ => ih s

theorem scanAfter_succ_eq_some {n : ℕ} : scanAfter address (n + 1) start = some s' ↔
    ∃ s, scanAfter address n start = some s ∧ scanStep address s = some s' := by
  rw [scanAfter_succ, bind_eq_some_iff]

theorem initrdLoop_of_step (h : scanStep address s = some s') (fuel : ℕ) :
    initrdLoop address (fuel + 1) s.mem s.tree s.hdr = initrdLoop address fuel s'.mem s'.tree s'.hdr := by
  obtain ⟨stop, hstop, h⟩ := bind_eq_some_iff.mp h
  obtain ⟨_, hgo, h⟩ := bind_eq_some_iff.mp h
  obtain ⟨cmp, hcmp, h⟩ := bind_eq_some_iff.mp h
  obtain ⟨_, hmagic, h⟩ := bind_eq_some_iff.mp h
  obtain ⟨⟨mem, tree⟩, hentry, h⟩ := bind_eq_some_iff.mp h
  obtain ⟨size, hsize, h⟩ := bind_eq_some_iff.mp h
  cases h
  obtain rfl : stop = false := (guard_eq_some' _).mp hgo
  unfold readSize at hsize
  simp only [initrdLoop, hstop, hcmp, hmagic, hentry, hsize, bind_eq_bind, Option.bind_some,
    Bool.false_eq_true, if_false]

theorem initrdLoop_of_stop (h : scanStep address s = none) (fuel fuel' : ℕ) :
    initrdLoop address (fuel + 1) s.mem s.tree s.hdr =
      initrdLoop address (fuel' + 1) s.mem s.tree s.hdr := by
  rw [initrdLoop, initrdLoop]
  refine Option.bind_congr fun stop hstop => ?_
  cases stop with
  | true => rfl
  | false =>
    rw [if_neg (by decide), if_neg (by decide)]
    refine Option.bind_congr fun cmp hcmp => Option.bind_congr fun _ hmagic =>
      Option.bind_congr fun r hentry => Option.bind_congr fun size hsize => ?_
    obtain rfl := (guard_eq_some' _).mp hmagic
    unfold scanStep readSize at h
    simp only [hstop, hcmp, hentry, hsize, guard, if_true, bind_eq_bind, Option.bind_some,
      Option.pure_def, reduceCtorEq] at h

theorem initrdLoop_of_ends {n fuel fuel' : ℕ} (h : scanAfter address n start = none) (hfuel : n ≤ fuel)
    (hfuel' : n ≤ fuel') : initrdLoop address fuel start.mem start.tree start.hdr =
      initrdLoop address fuel' start.mem start.tree start.hdr := by
  induction n generalizing start fuel fuel' with
  | zero => cases h
  | succ n ih =>
    obtain ⟨fuel, rfl⟩ := Nat.exists_eq_add_of_le' hfuel
    obtain ⟨fuel', rfl⟩ := Nat.exists_eq_add_of_le' hfuel'
    cases hstep : scanStep address start with
    | none => exact initrdLoop_of_stop hstep (fuel + n) (fuel' + n)
    | some s =>
      rw [scanAfter, hstep, Option.bind_some] at h
      rw [← Nat.add_assoc, ← Nat.add_assoc, initrdLoop_of_step hstep, initrdLoop_of_step hstep]
      exact ih h (Nat.le_add_left n fuel) (Nat.le_add_left n fuel')

theorem hdr_lt_of_moves {n : ℕ} (hmoves : Moves address start) (hs : scanAfter address n start = some s)
    (hstep : scanStep address s = some s') : s.hdr < s'.hdr := by
  obtain ⟨size, -, heq⟩ := hmoves n s s' hs hstep
  unfold entryLength at heq
  omega

theorem le_hdr_of_moves (hmoves : Moves address start) {n : ℕ} (h : scanAfter address n start = some s) :
    n ≤ s.hdr ∧ s.mem.length = start.mem.length := by
  induction n generalizing s with
  | zero =>
    cases h
    exact ⟨Nat.zero_le _, rfl⟩
  | succ n ih =>
    obtain ⟨s₀, hs, hstep⟩ := scanAfter_succ_eq_some.mp h
    obtain ⟨hle, hlen⟩ := ih hs
    have hlt := hdr_lt_of_moves hmoves hs hstep
    exact ⟨by omega, (scanStep_some hstep).2.2.1.trans hlen⟩

theorem ends_of_moves (hmoves : Moves address start) :
    scanAfter address (start.mem.length + 1) start = none := by
  by_contra h
  obtain ⟨s', hs'⟩ := ne_none_iff_exists'.mp h
  obtain ⟨s, hs, hstep⟩ := scanAfter_succ_eq_some.mp hs'
  obtain ⟨hle, hlen⟩ := le_hdr_of_moves hmoves hs
  have hlt := (scanStep_some hstep).1
  omega

theorem initrdLoop_settled (hmoves : Moves address start) {fuel : ℕ}
    (hfuel : start.mem.length + 1 ≤ fuel) : initrdLoop address fuel start.mem start.tree start.hdr =
      initrdLoop address (start.mem.length + 1) start.mem start.tree start.hdr :=
  initrdLoop_of_ends (ends_of_moves hmoves) hfuel (Nat.le_refl _)

theorem apart_of_moves (hmoves : Moves address start) {m : ℕ} (hs : scanAfter address m start = some s)
    {size : UInt64} (hsize : readSize s.mem s.hdr = some size) {n : ℕ} (hn : m < n)
    (hs' : scanAfter address n start = some s') : s.hdr + entryLength size.toNat ≤ s'.hdr := by
  induction n, hn using Nat.le_induction generalizing s' with
  | base =>
    obtain ⟨s₀, hs₀, hstep⟩ := scanAfter_succ_eq_some.mp hs'
    cases hs.symm.trans hs₀
    obtain ⟨size', hsize', heq⟩ := hmoves m s s' hs hstep
    cases hsize.symm.trans hsize'
    exact Nat.le_of_eq heq.symm
  | succ n hn ih =>
    obtain ⟨s₀, hs₀, hstep⟩ := scanAfter_succ_eq_some.mp hs'
    exact (ih hs₀).trans (Nat.le_of_lt (hdr_lt_of_moves hmoves hs₀ hstep))

theorem step_of_scanAfter {m n : ℕ} (hmn : m < n) (hs : scanAfter address m start = some s)
    (hs' : scanAfter address n start = some s') : ∃ s₁, scanStep address s = some s₁ := by
  induction n, hmn using Nat.le_induction generalizing s' with
  | base =>
    obtain ⟨s₀, hs₀, hstep⟩ := scanAfter_succ_eq_some.mp hs'
    cases hs.symm.trans hs₀
    exact ⟨s', hstep⟩
  | succ n hn ih =>
    obtain ⟨s'', hs'', -⟩ := scanAfter_succ_eq_some.mp hs'
    exact ih hs''

end

def sampleHeader (size : List UInt8) : List UInt8 :=
  List.replicate sizeField 0 ++ (size ++ (List.replicate 20 0 ++ (48 :: (List.replicate 100 0 ++
    (ustarMagic ++ List.replicate 250 0)))))

theorem everyRound_of_single {address : ℕ} {start s₁ : Scan} (hstep : scanStep address start = some s₁)
    (hend : scanStep address s₁ = none) {P : List UInt8 → ℕ → Prop} (h : P start.mem start.hdr) :
    EveryRound address start P := by
  intro n s s' hs hs'
  match n with
  | 0 =>
    cases hs
    exact h
  | 1 =>
    rw [scanAfter, hstep] at hs
    cases hs
    cases hend.symm.trans hs'
  | n + 2 =>
    rw [scanAfter, hstep, Option.bind_some, scanAfter, hend] at hs
    cases hs

def sampleImage : List UInt8 := sampleHeader (49 :: List.replicate 11 0) ++ (120 :: List.replicate 1535 0)

def hugeImage : List UInt8 := sampleHeader [51, 55, 55, 55, 55, 55, 55, 55, 48, 48, 48, 0]

theorem scanStep_hugeImage {t : Ramdisk} (ht : t.nodes.node rootNode ≠ none) :
    ∃ t', scanStep 0 ⟨hugeImage, t, 0⟩ = some ⟨hugeImage, t', 0⟩ ∧ t'.nodes.node rootNode ≠ none := by
  obtain ⟨root, hroot⟩ := ne_none_iff_exists'.mp ht
  obtain ⟨hstop, hmagic, hnorm, hname, hfirst, htype, hsize⟩ :
      atEnd hugeImage 0 = some false ∧ memStrcmp ustarMagic (hugeImage.drop (0 + magicField)) = some 0 ∧
        pathNormalize hugeImage 0 0 = some hugeImage ∧ memStr hugeImage 0 = some (.ofList [] rfl) ∧
        hugeImage[0]? = some 0 ∧ hugeImage[0 + typeField]? = some 48 ∧
        readSize hugeImage 0 = some 4294966784 := by
    decide +kernel
  have hentry : processEntry 0 hugeImage t 0 = some (hugeImage,
      attach t t.nodes rootNode root ⟨.ofList [] rfl, .reg, []⟩ 4294966784 (0 + 0 + 512)) := by
    have hwalk : walkLoop (hugeImage.length + 1) hugeImage t.nodes rootNode 0 =
        some (hugeImage, t.nodes, rootNode) := by
      rw [walkLoop, hfirst]
      rfl
    unfold readSize at hsize
    simp only [processEntry, hnorm, hname, htype, hsize, hwalk, hroot, bind_eq_bind, Option.bind_some]
    rfl
  refine ⟨attach t t.nodes rootNode root ⟨.ofList [] rfl, .reg, []⟩ 4294966784 (0 + 0 + 512), ?_, ?_⟩
  · simp only [scanStep, hstop, hmagic, hentry, hsize, guard, if_true, bind_eq_bind, Option.bind_some,
      Option.pure_def]
    rfl
  · unfold attach
    dsimp only
    by_cases h : rootNode = t.nodes.next
    · rw [h, Function.update_self]
      exact some_ne_none _
    · rw [Function.update_of_ne h, Function.update_self]
      exact some_ne_none _

end LykOS.Initrd
