import LykOS.Arch.X8664.Ptm.Model
import LykOS.Fs.Vfs.Model
import LykOS.Lib.Bits
import LykOS.Lib.Bytes

/-!
# AHCI commands

`ahci_setup` and `ahci_read` of `modules/ahci/ahci.c`. Memory is that of bytes at physical addresses; the
offset `HHDM` is left out. The fields for the address of a command table have 16 bits each, so `ahci_read`
finds the table again exactly if the bits 16 to 31 of its address, and those above 47, are 0. The byte count
has 22 bits, and there is one entry for the buffer, so a command that is issued is right exactly for 1 to
8192 sectors of a buffer that is contiguous in memory (`ahci_encoding_right_iff`).
-/

namespace LykOS.Ahci

open Bytes List

/-- The registers of a `port_t` that are used. -/
structure Port where
  clb : ℕ
  clbu : ℕ
  fb : ℕ
  fbu : ℕ
  sact : ℕ
  ci : ℕ

/-- `sizeof(cmd_header_t)`. -/
def sizeofCmdHeader : ℕ := 28

/-- `sizeof(cmd_table_t)`: the entries are behind it. -/
def sizeofCmdTable : ℕ := 128

def cmdSlots (cap : ℕ) : ℕ := (cap >>> 8) &&& 0x1F

/-- A round of the loop of `ahci_setup` over the slots: `prdtl`, `ctba` and `ctbau` of the header are set,
and the table is cleared. -/
def setupSlot (clb : ℕ) (mem : ℕ → UInt8) (slot ctba : ℕ) : ℕ → UInt8 :=
  let hdr := clb + slot * sizeofCmdHeader
  let mem := put mem (hdr + 2) (ofNat 2 0)
  let mem := put mem (hdr + 8) (ofNat 2 (ctba &&& 0xFFFFFFFF))
  let mem := put mem (hdr + 10) (ofNat 2 ((ctba >>> 32) &&& 0xFFFFFFFF))
  put mem ctba (List.replicate sizeofCmdTable 0)

def setupSlots (clb : ℕ) (ctba : ℕ → ℕ) (n : ℕ) (mem : ℕ → UInt8) : ℕ → UInt8 :=
  (List.range n).foldl (fun mem slot => setupSlot clb mem slot (ctba slot)) mem

/-- What `ahci_setup` does for a port, between `ahci_port_idle` and `ahci_port_start`, when `taken` frames
have been allocated. -/
def ahciSetup (F : Vfs.Frames) (taken cap : ℕ) (port : Port) (mem : ℕ → UInt8) : Port × (ℕ → UInt8) :=
  let clb := F.frames taken
  let fb := F.frames (taken + 1)
  let mem := put mem clb (List.replicate 1024 0)
  let mem := put mem fb (List.replicate 256 0)
  ({ port with
      clb := clb &&& 0xFFFFFFFF
      clbu := (clb >>> 32) &&& 0xFFFFFFFF
      fb := fb &&& 0xFFFFFFFF
      fbu := (fb >>> 32) &&& 0xFFFFFFFF },
    setupSlots clb (fun slot => F.frames (taken + 2 + slot)) (cmdSlots cap) mem)

def cmdHdr (port : Port) (slot : ℕ) : ℕ := (port.clbu <<< 32 ||| port.clb) + slot * sizeofCmdHeader

/-- `cmd_tbl`, from the header at `hdr`. -/
def cmdTbl (mem : ℕ → UInt8) (hdr : ℕ) : ℕ := le mem (hdr + 10) 2 <<< 32 ||| le mem (hdr + 8) 2

/-- The table that is found for a slot is the frame that was allocated for it. -/
def TableFound (F : Vfs.Frames) (taken cap : ℕ) (port : Port) (mem : ℕ → UInt8) (slot : ℕ) : Prop :=
  let (port, mem) := ahciSetup F taken cap port mem
  cmdTbl mem (cmdHdr port slot) = F.frames (taken + 2 + slot)

/-- `ahci_find_free_cmd_slot`, which returns -1 if there is none. -/
def ahciFindFreeCmdSlot (port : Port) : Option ℕ :=
  (List.range 32).find? fun i => (port.sact ||| port.ci) &&& (1 <<< i) = 0

/-- The `fis_reg_h2d_t` of `ahci_read`. -/
def readFis (lba count : ℕ) : List UInt8 :=
  [0x27, 1 <<< 7, 0x25, 0, lba &&& 0xFF, (lba >>> 8) &&& 0xFF, (lba >>> 16) &&& 0xFF, 1 <<< 6,
    (lba >>> 24) &&& 0xFF, (lba >>> 32) &&& 0xFF, (lba >>> 40) &&& 0xFF, 0, count &&& 0xFF,
    (count >>> 8) &&& 0xFF, 0, 0, 0, 0, 0, 0].map UInt8.ofNat

/-- The `prdt_entry_t` of `ahci_read`; `dbc` has 22 bits, and `i` is the highest one. -/
def readPrdt (bufPhys count : ℕ) : List UInt8 :=
  ofNat 4 (bufPhys &&& 0xFFFFFFFF) ++ ofNat 4 ((bufPhys >>> 32) &&& 0xFFFFFFFF) ++ ofNat 4 0 ++
    ofNat 4 (u64 (count * 512 + (2 ^ 64 - 1)) % 2 ^ 22 + 2 ^ 31)

/-- A command that is issued: its slot, its table and the memory. -/
structure Issued where
  slot : ℕ
  tbl : ℕ
  mem : ℕ → UInt8

/-- The command that `ahci_read` issues. Of the first word of the header, `cfl` and `w` are written. -/
def readCmd (port : Port) (mem : ℕ → UInt8) (slot lba bufPhys count : ℕ) : Issued :=
  let hdr := cmdHdr port slot
  let tbl := cmdTbl mem hdr
  let mem := put mem hdr (ofNat 2 (le mem hdr 2 &&& 0xFFA0 ||| 5))
  let mem := put mem (hdr + 2) (ofNat 2 1)
  let mem := put mem tbl (readFis lba count)
  let mem := put mem (tbl + 64) (List.replicate 16 0)
  ⟨slot, tbl, put mem (tbl + 128) (readPrdt bufPhys count)⟩

section

-- what `ahci_issue_cmd` returns for a command, if it returns, and `vmm_virt_to_phys` for the kernel
variable (hba : Issued → Bool) (virtToPhys : ℕ → ℕ)

/-- `ahci_read`, and the command that it issues. -/
def ahciRead (port : Port) (mem : ℕ → UInt8) (lba buf count : ℕ) : Bool × Option Issued :=
  match ahciFindFreeCmdSlot port with
  | none => (false, none)
  | some slot =>
    let cmd := readCmd port mem slot lba (virtToPhys buf) count
    (hba cmd, some cmd)

def Contiguous (buf n : ℕ) : Prop := ∀ k < n, virtToPhys (u64 (buf + k)) = virtToPhys buf + k

/-- The command is for `count` sectors from `lba` on, and for the memory of the buffer. -/
structure Encodes (lba buf count : ℕ) (cmd : Issued) : Prop where
  lba : le cmd.mem (cmd.tbl + 4) 3 + le cmd.mem (cmd.tbl + 8) 3 * 2 ^ 24 = lba
  sectors : le cmd.mem (cmd.tbl + 12) 2 = count
  bytes : le cmd.mem (cmd.tbl + 140) 4 % 2 ^ 22 + 1 = count * 512
  buffer : ∀ k < count * 512, virtToPhys (u64 (buf + k)) = le cmd.mem (cmd.tbl + 128) 8 + k

def ReadRight (port : Port) (mem : ℕ → UInt8) (lba buf count : ℕ) : Prop :=
  (ahciRead hba virtToPhys port mem lba buf count).1 = false ∨
    ∃ cmd, (ahciRead hba virtToPhys port mem lba buf count).2 = some cmd ∧
      Encodes virtToPhys lba buf count cmd

end

/-- The address of a table fits the two fields of its header. -/
def Fits (ctba : ℕ) : Prop := ctba % 2 ^ 32 < 2 ^ 16 ∧ ctba / 2 ^ 32 < 2 ^ 16

/-! ## Command tables -/

theorem low_word (x : ℕ) : x &&& 0xFFFFFFFF = x % 2 ^ 32 := Nat.and_two_pow_sub_one_eq_mod x 32

section

variable {clb n : ℕ} {ctba : ℕ → ℕ} {mem : ℕ → UInt8}

theorem le_setupSlot {q m : ℕ} (hclb : clb % archPageGran = 0) (hctba : ctba n % archPageGran = 0)
    (hne : ctba n ≠ clb) (hn : n < 32) (hq : clb ≤ q) (hm : q + m ≤ clb + n * sizeofCmdHeader) :
    le (setupSlot clb mem n (ctba n)) q m = le mem q m := by
  unfold archPageGran at hclb hctba
  unfold sizeofCmdHeader at hm
  unfold setupSlot sizeofCmdHeader sizeofCmdTable
  dsimp only
  rw [le_put_of_disjoint (by rw [length_replicate]; omega), le_put_of_disjoint (.inl (by omega)),
    le_put_of_disjoint (.inl (by omega)), le_put_of_disjoint (.inl (by omega))]

theorem cmdTbl_setupSlot (hclb : clb % archPageGran = 0) (hctba : ctba n % archPageGran = 0)
    (hne : ctba n ≠ clb) (hn : n < 32) :
    cmdTbl (setupSlot clb mem n (ctba n)) (clb + n * sizeofCmdHeader) =
      ctba n / 2 ^ 32 % 2 ^ 16 * 2 ^ 32 + ctba n % 2 ^ 16 := by
  unfold archPageGran at hclb hctba
  have hclear : ∀ mem : ℕ → UInt8, ∀ k ≤ 10,
      le (put mem (ctba n) (List.replicate 128 0)) (clb + n * 28 + k) 2 = le mem (clb + n * 28 + k) 2 :=
    fun mem k hk => le_put_of_disjoint (by rw [length_replicate]; omega)
  unfold cmdTbl setupSlot sizeofCmdHeader sizeofCmdTable
  dsimp only
  rw [hclear _ 10 (by decide), hclear _ 8 (by decide), le_put_ofNat, le_put_of_disjoint (.inl (by omega)),
    le_put_ofNat, low_word, low_word, Nat.shiftRight_eq_div_pow, Nat.shiftLeft_eq, Bits.mul_or (by omega)]
  omega

theorem cmdTbl_setupSlots (hclb : clb % archPageGran = 0) (hctba : ∀ i, ctba i % archPageGran = 0)
    (hne : ∀ i, ctba i ≠ clb) (hn : n ≤ 32) {i : ℕ} (hi : i < n) :
    cmdTbl (setupSlots clb ctba n mem) (clb + i * sizeofCmdHeader) =
      ctba i / 2 ^ 32 % 2 ^ 16 * 2 ^ 32 + ctba i % 2 ^ 16 := by
  induction n with
  | zero => omega
  | succ n ih =>
    have hstep : setupSlots clb ctba (n + 1) mem =
        setupSlot clb (setupSlots clb ctba n mem) n (ctba n) := by
      rw [setupSlots, range_succ, foldl_append]
      rfl
    rw [hstep]
    rcases Nat.lt_succ_iff_lt_or_eq.mp hi with hi | rfl
    · have hkept : ∀ j ≤ 10, le (setupSlot clb (setupSlots clb ctba n mem) n (ctba n))
          (clb + i * sizeofCmdHeader + j) 2 =
            le (setupSlots clb ctba n mem) (clb + i * sizeofCmdHeader + j) 2 := fun j hj =>
        le_setupSlot hclb (hctba n) (hne n) (by omega) (by omega) (by unfold sizeofCmdHeader; omega)
      rw [cmdTbl, hkept 10 (by decide), hkept 8 (by decide)]
      exact ih (by omega) hi
    · exact cmdTbl_setupSlot hclb (hctba i) (hne i) (by omega)

end

theorem cmdSlots_lt (cap : ℕ) : cmdSlots cap < 32 := Nat.and_lt_two_pow (n := 5) _ (by decide)

theorem tableFound_iff {F : Vfs.Frames} {taken cap slot : ℕ} {port : Port} {mem : ℕ → UInt8}
    (hclb : F.frames taken < 2 ^ 64) (hslot : slot < cmdSlots cap) :
    TableFound F taken cap port mem slot ↔ Fits (F.frames (taken + 2 + slot)) := by
  have hlist : ((F.frames taken >>> 32 &&& 0xFFFFFFFF) <<< 32 ||| F.frames taken &&& 0xFFFFFFFF) =
      F.frames taken := by
    rw [low_word, low_word, Nat.shiftRight_eq_div_pow, Nat.shiftLeft_eq, Bits.mul_or (by omega)]
    omega
  have hne : ∀ i, F.frames (taken + 2 + i) ≠ F.frames taken := fun i heq => by
    have := F.injective heq
    omega
  dsimp only [TableFound, ahciSetup, cmdHdr]
  rw [hlist, cmdTbl_setupSlots (F.aligned _) (fun i => F.aligned _) hne (cmdSlots_lt cap).le hslot, Fits]
  omega

/-! ## Commands -/

section

variable {port : Port} {mem : ℕ → UInt8} {slot lba bufPhys count : ℕ}

theorem le_readCmd_fis {k n : ℕ} (h : k + n ≤ 20) :
    let cmd := readCmd port mem slot lba bufPhys count
    le cmd.mem (cmd.tbl + k) n = toNat (((readFis lba count).drop k).take n) := by
  dsimp only [readCmd]
  rw [le_put_of_disjoint (.inl (by omega)), le_put_of_disjoint (.inl (by omega)), le_put_add h]

theorem le_readCmd_prdt {k n : ℕ} (h : k + n ≤ 16) :
    let cmd := readCmd port mem slot lba bufPhys count
    le cmd.mem (cmd.tbl + 128 + k) n = toNat (((readPrdt bufPhys count).drop k).take n) := le_put_add h

theorem readCmd_fis (hlba : lba < 2 ^ 48) :
    let cmd := readCmd port mem slot lba bufPhys count
    le cmd.mem (cmd.tbl + 4) 3 + le cmd.mem (cmd.tbl + 8) 3 * 2 ^ 24 = lba ∧
      le cmd.mem (cmd.tbl + 12) 2 = count % 2 ^ 16 := by
  have hbyte : ∀ x, x &&& 0xFF = x % 2 ^ 8 := fun x => Nat.and_two_pow_sub_one_eq_mod x 8
  dsimp only
  rw [le_readCmd_fis (by decide), le_readCmd_fis (by decide), le_readCmd_fis (by decide)]
  simp only [readFis, map_cons, drop_succ_cons, drop_zero, take_succ_cons,
    take_zero, Bytes.toNat, UInt8.toNat_ofNat', hbyte, Nat.shiftRight_eq_div_pow]
  omega

theorem readCmd_prdt (hphys : bufPhys < 2 ^ 64) :
    let cmd := readCmd port mem slot lba bufPhys count
    le cmd.mem (cmd.tbl + 128) 8 = bufPhys ∧
      le cmd.mem (cmd.tbl + 140) 4 % 2 ^ 22 = (count * 512 + (2 ^ 64 - 1)) % 2 ^ 22 := by
  have haddr : toNat (ofNat 4 (bufPhys &&& 0xFFFFFFFF) ++ ofNat 4 ((bufPhys >>> 32) &&& 0xFFFFFFFF)) =
      bufPhys := by
    simp only [ofNat, cons_append, nil_append, Bytes.toNat, UInt8.toNat_ofNat', low_word,
      Nat.shiftRight_eq_div_pow]
    omega
  have hcount : toNat (((readPrdt bufPhys count).drop 12).take 4) =
      (u64 (count * 512 + (2 ^ 64 - 1)) % 2 ^ 22 + 2 ^ 31) % 256 ^ 4 := toNat_ofNat 4 _
  refine ⟨(le_readCmd_prdt (k := 0) (by decide)).trans haddr, ?_⟩
  refine (congrArg (· % 2 ^ 22) ((le_readCmd_prdt (k := 12) (by decide)).trans hcount)).trans ?_
  dsimp only [u64]
  omega

theorem readRight_iff {hba : Issued → Bool} {virtToPhys : ℕ → ℕ} {buf : ℕ} (hlba : lba < 2 ^ 48)
    (hphys : virtToPhys buf < 2 ^ 64) :
    ReadRight hba virtToPhys port mem lba buf count ↔
      (ahciRead hba virtToPhys port mem lba buf count).1 = false ∨
        0 < count ∧ count ≤ 8192 ∧ Contiguous virtToPhys buf (count * 512) := by
  unfold ReadRight ahciRead
  cases ahciFindFreeCmdSlot port with
  | none => exact iff_of_true (.inl rfl) (.inl rfl)
  | some slot =>
    obtain ⟨hfis, hsectors⟩ := @readCmd_fis port mem slot lba (virtToPhys buf) count hlba
    obtain ⟨haddr, hbytes⟩ := @readCmd_prdt port mem slot lba (virtToPhys buf) count hphys
    refine or_congr_right ⟨?_, ?_⟩
    · rintro ⟨cmd, hcmd, -, -, hcount, hbuffer⟩
      cases hcmd
      rw [hbytes] at hcount
      rw [haddr] at hbuffer
      exact ⟨by omega, by omega, hbuffer⟩
    · rintro ⟨hpos, hle, hbuffer⟩
      refine ⟨_, rfl, hfis, hsectors.trans (by omega), ?_, ?_⟩
      · rw [hbytes]
        omega
      · rwa [haddr]

end

theorem archPtmVirtToPhys_lt (frames : ℕ → ℕ) (s : X8664.Ptm) (pml4 virt : ℕ) :
    X8664.archPtmVirtToPhys frames s pml4 virt < 2 ^ 64 := by
  have haddr : ∀ pte, X8664.pteGetAddr pte < 2 ^ 52 := fun pte => Nat.and_lt_two_pow pte (by decide)
  have hoff : virt &&& 0xFFF < 2 ^ 12 := Nat.and_lt_two_pow virt (by decide)
  unfold X8664.archPtmVirtToPhys
  cases (X8664.descend frames false (X8664.tablePath virt) s pml4).1 with
  | none => exact show badAddress < 2 ^ 64 by decide
  | some table =>
    have hpte := haddr (s.tables table (X8664.tableEntry virt 12))
    dsimp only
    split_ifs
    · decide
    · omega

/-- For every slot and all frames, `ahci_read` finds the command table that `ahci_setup` has allocated
exactly if its address fits the fields of the header. For every `lba` below `2 ^ 48`, every count and
every buffer, it returns false, or else what it issues is right exactly for 1 to 8192 sectors and a buffer
that is contiguous in memory. -/
theorem ahci_encoding_right_iff (F : Vfs.Frames) {taken : ℕ} (cap : ℕ) (hba : Issued → Bool)
    (frames : ℕ → ℕ) (s : X8664.Ptm) (pml4 : ℕ) (port : Port) (mem : ℕ → UInt8)
    (hclb : F.frames taken < 2 ^ 64) :
    (∀ slot < cmdSlots cap, TableFound F taken cap port mem slot ↔ Fits (F.frames (taken + 2 + slot))) ∧
    ∀ lba < 2 ^ 48, ∀ buf count,
      ReadRight hba (X8664.archPtmVirtToPhys frames s pml4) port mem lba buf count ↔
        (ahciRead hba (X8664.archPtmVirtToPhys frames s pml4) port mem lba buf count).1 = false ∨
          0 < count ∧ count ≤ 8192 ∧
            Contiguous (X8664.archPtmVirtToPhys frames s pml4) buf (count * 512) :=
  ⟨fun _ hslot => tableFound_iff hclb hslot, fun _ hlba buf _ =>
    readRight_iff hlba (archPtmVirtToPhys_lt frames s pml4 buf)⟩

/-- Frames at the multiples of `k + 1` pages. -/
def spacedFrames (k : ℕ) : Vfs.Frames where
  frames n := n * ((k + 1) * archPageGran)
  injective _ _ h := Nat.eq_of_mul_eq_mul_right (Nat.mul_pos k.succ_pos (by decide)) h
  aligned n := by rw [← Nat.mul_assoc, mul_archPageGran_mod]

def idlePort : Port := ⟨0, 0, 0, 0, 0, 0⟩

def noTables : X8664.Ptm := ⟨fun _ _ => 0, fun _ => 0, 0⟩

/-- A table at `0x200000000`. -/
theorem ahci_encoding_right_iff_sample :
    (spacedFrames 0xFFFFF).frames 0 < 2 ^ 64 ∧
      TableFound (spacedFrames 0xFFFFF) 0 0x100 idlePort (fun _ => 0) 0 :=
  have hclb : (spacedFrames 0xFFFFF).frames 0 < 2 ^ 64 := by decide
  have h := (ahci_encoding_right_iff _ 0x100 (fun _ => true) id noTables 0 idlePort (fun _ => 0) hclb).1
  ⟨hclb, (h 0 (by decide)).mpr (by unfold Fits; decide)⟩

/-- A table at `0x20000` is looked for elsewhere, and a command for 8193 sectors is not right. -/
theorem table_and_count_cut :
    (spacedFrames 15).frames 2 = 0x20000 ∧
      ¬ TableFound (spacedFrames 15) 0 0x100 idlePort (fun _ => 0) 0 ∧
      ¬ ReadRight (fun _ => true) (X8664.archPtmVirtToPhys id noTables 0) idlePort (fun _ => 0) 0 0
        8193 := by
  refine ⟨by decide, fun h => ?_, fun h => ?_⟩
  · exact absurd ((tableFound_iff (by decide) (by decide)).mp h) (by unfold Fits; decide)
  · rcases (readRight_iff (by decide) (archPtmVirtToPhys_lt ..)).mp h with h | ⟨-, hle, -⟩
    · exact absurd h (by decide)
    · exact absurd hle (by decide)

end LykOS.Ahci
