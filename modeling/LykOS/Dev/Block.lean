import LykOS.Arch.Types
import LykOS.Common.Sync.Spinlock
import LykOS.Lib.Bytes

/-!
# Block devices and their partition tables

`read_part_table` allocates a buffer for a header and then passes the address of the variable that points to
it, `&mbr_hdr`, to the driver: a sector of more than 8 bytes is written past the variable, and a shorter one
becomes part of the pointer. `add_partition` allocates the new device and then fills in `*dev`, the drive.
So a scan of a registered drive either shows no partition and leaves the drive alone or makes the drive its
own parent (`readPartTable_cases`), and it does what it is for only on a disk without partitions, with
sectors of at most 8 bytes, if the memory it reads instead of the disk shows none either (`scan_iff`).

A write past its object, a `NULL` that is written to, a panic and a failed assertion are `none`.
-/

namespace LykOS.Block

open Function List Option

inductive BlockDeviceType where
  | drive
  | partition
  deriving DecidableEq

inductive Ioctl where
  | blockDeviceIoctl
  deriving DecidableEq

/-- `block_device_t`. -/
structure BlockDevice where
  name : ℕ
  type : BlockDeviceType
  partitions : List ℕ
  parent : ℕ
  lbaOffset : ℕ
  sectorSize : ℕ
  sectorCount : ℕ
  read : ℕ
  write : ℕ
  ioctl : Option Ioctl
  driverData : ℕ
  slock : Spinlock.Lock
  /-- `list_node`: `prev` and `next`. -/
  listNode : ℕ × ℕ
  refCount : ℕ
  deriving DecidableEq

/-- The kernel's memory: bytes, descriptors, `g_drive_list`, and the addresses that the heap hands out,
with the number of those it has handed out. -/
structure State where
  mem : ℕ → UInt8
  mapped : ℕ → Bool
  devs : ℕ → BlockDevice
  driveList : List ℕ
  heap : ℕ → ℕ
  taken : ℕ

def State.load (s : State) (p n : ℕ) : Option ℕ :=
  if (List.range n).all fun k => s.mapped (p + k) then some (Bytes.le s.mem p n) else none

def State.store (s : State) (p : ℕ) (bytes : List UInt8) : State :=
  { s with mem := Bytes.put s.mem p bytes }

def heapAlloc (size : ℕ) (s : State) : Option (ℕ × State) :=
  if size ≤ 1024 then some (s.heap s.taken, { s with taken := s.taken + 1 }) else none

/-- `strlen`, up to the given bound. -/
def strlen (s : State) (p : ℕ) : ℕ → Option ℕ
  | 0 => none
  | n + 1 => do
    let c ← s.load p 1
    if c = 0 then some 0 else (strlen s (p + 1) n).map (· + 1)

/-- `strdup`. A string with no end in 1024 bytes fails the assertion of `heap_alloc`. -/
def strdup (p : ℕ) (s : State) : Option (ℕ × State) :=
  if p = 0 then some (0, s)
  else do
    let n ← strlen s p 1024
    let (dup, s) ← heapAlloc (n + 1) s
    if dup = 0 then some (0, s)
    else some (dup, s.store dup ((List.range (n + 1)).map fun k => s.mem (p + k)))

/-- `sizeof(block_device_t)`. -/
def sizeofBlockDevice : ℕ := 136

/-- The descriptor that `add_partition` makes from that of the drive. -/
def BlockDevice.asPartition (d : BlockDevice) (dev name lbaOffset sectorCount : ℕ) : BlockDevice where
  name := name
  type := .drive
  partitions := []
  parent := dev
  lbaOffset := lbaOffset
  sectorSize := d.sectorSize
  sectorCount := sectorCount
  read := d.read
  write := d.write
  ioctl := some .blockDeviceIoctl
  driverData := d.driverData
  slock := ⟨false, false⟩
  listNode := (0, 0)
  refCount := 0

/-- `list_append(&dev->partitions, &part->list_node)`, for a list that is empty. -/
def linkFirst (dev part : ℕ) (devs : ℕ → BlockDevice) : ℕ → BlockDevice :=
  let devs := update devs part { devs part with listNode := (0, 0) }
  update devs dev { devs dev with partitions := [part] }

/-- `add_partition`. It is `*dev` that is written; of `*part` only the node is, in the list. -/
def addPartition (dev name lbaOffset sectorCount : ℕ) (s : State) : Option State := do
  let (part, s) ← heapAlloc sizeofBlockDevice s
  let (dup, s) ← strdup name s
  let devs := update s.devs dev ((s.devs dev).asPartition dev dup lbaOffset sectorCount)
  if part = 0 then none else some { s with devs := linkFirst dev part devs }

/-! ## The scan -/

/-- The bytes of `count` sectors from `lba` on, which the driver's `read` transfers. -/
def transfer (disk : ℕ → UInt8) (sectorSize lba count : ℕ) : List UInt8 :=
  (List.range (count * sectorSize)).map fun k => disk (lba * sectorSize + k)

/-- A variable that holds the pointer `p`, after a transfer of `bytes` to the address of the
variable. -/
def overwrite (p : ℕ) (bytes : List UInt8) : Option ℕ :=
  if bytes.length ≤ 8 then some (Bytes.toNat (bytes ++ (Bytes.ofNat 8 p).drop bytes.length)) else none

/-- `hdr = heap_alloc(dev->sector_size); dev->read(dev, lba, &hdr, 1)`. -/
def header (disk : ℕ → UInt8) (dev lba : ℕ) (s : State) : Option (ℕ × State) := do
  let (hdr, s) ← heapAlloc (s.devs dev).sectorSize s
  let hdr ← overwrite hdr (transfer disk (s.devs dev).sectorSize lba 1)
  some (hdr, s)

/-- What the loop over the MBR finds in an entry. -/
inductive MbrSlot where
  | protective
  | empty
  | used (lbaStart sectorCount : ℕ)

/-- The tests on the `mbr_part_table_entry_t` at `p`. -/
def mbrSlot (load : ℕ → ℕ → Option ℕ) (p : ℕ) : Option MbrSlot := do
  let type ← load (p + 4) 1
  if type = 0xEE then some .protective
  else
    let lbaStart ← load (p + 8) 4
    -- the other side of the `&&` is not read
    if lbaStart = 0 then some .empty
    else
      let sectorCount ← load (p + 12) 4
      if sectorCount = 0 then some .empty else some (.used lbaStart sectorCount)

/-- The loop over `part_table` of the `mbr_header_t` at `hdr`; the result is `gpt_disk`. -/
def mbrLoop (dev hdr : ℕ) : List ℕ → State → Option (Bool × State)
  | [], s => some (false, s)
  | i :: is, s =>
    match mbrSlot s.load (hdr + 446 + 16 * i) with
    | none => none
    | some .protective => some (true, s)
    | some .empty => mbrLoop dev hdr is s
    | some (.used lbaStart sectorCount) =>
      (addPartition dev 0 lbaStart sectorCount s).bind (mbrLoop dev hdr is)

def readMbr (dev hdr signature : ℕ) (s : State) : Option (Bool × State) :=
  if signature = 0xAA55 then mbrLoop dev hdr [0, 1, 2, 3] s else some (false, s)

/-- The tests on the `gpt_part_table_entry_t` at `p`: its first sector and their number, if it is
used. -/
def gptSlot (load : ℕ → ℕ → Option ℕ) (p : ℕ) : Option (Option (ℕ × ℕ)) := do
  let lbaStart ← load (p + 32) 8
  if lbaStart = 0 then some none
  else
    let lbaEnd ← load (p + 40) 8
    if lbaEnd = 0 then some none else some (some (lbaStart, (lbaEnd + 2 ^ 64 - lbaStart + 1) % 2 ^ 64))

/-- `entries`, with the sectors of the table that fit in it read. -/
def gptTable (disk : ℕ → UInt8) (dev hdr : ℕ) (s : State) : Option (ℕ × State) := do
  let count ← s.load (hdr + 80) 4
  let size ← s.load (hdr + 84) 4
  let entriesSize := count * size % 2 ^ 32
  let (entries, s) ← heapAlloc entriesSize s
  let lba ← s.load (hdr + 72) 8
  let sectorSize := (s.devs dev).sectorSize
  if sectorSize = 0 then none
  else some (entries, s.store entries (transfer disk sectorSize lba (entriesSize / sectorSize)))

/-- The address of entry `i`, in the arithmetic of `uint` and `u32`. -/
def gptEntryAt (entries size i : ℕ) : ℕ := entries + i * size % 2 ^ 32

def uintCount : ℕ := 2 ^ 32

/-- The loop over the GPT entries from `i` on. The count is read again in each round; it is less than
`uintCount`, which is what the fuel and `i` add up to. -/
def gptLoop (dev hdr entries : ℕ) : ℕ → ℕ → State → Option State
  | 0, _, s => some s
  | fuel + 1, i, s => do
    let count ← s.load (hdr + 80) 4
    if i < count then
      let size ← s.load (hdr + 84) 4
      match gptSlot s.load (gptEntryAt entries size i) with
      | none => none
      | some none => gptLoop dev hdr entries fuel (i + 1) s
      | some (some (lbaStart, sectorCount)) =>
        (addPartition dev (gptEntryAt entries size i + 56) lbaStart sectorCount s).bind
          (gptLoop dev hdr entries fuel (i + 1))
    else some s

def efiPart : ℕ := 0x5452415020494645

/-- What follows in `read_part_table` once `gpt_disk` is set. -/
def readGpt (disk : ℕ → UInt8) (dev : ℕ) (s : State) : Option State := do
  let (hdr, s) ← header disk dev 1 s
  let signature ← s.load hdr 8
  if signature = efiPart then
    let (entries, s) ← gptTable disk dev hdr s
    gptLoop dev hdr entries uintCount 0 s
  else some s

def readPartTable (disk : ℕ → UInt8) (dev : ℕ) (s : State) : Option (ℤ × State) :=
  if (s.devs dev).type ≠ .drive then some (-1, s)
  else if (s.devs dev).read = 0 ∨ (s.devs dev).write = 0 ∨ (s.devs dev).ioctl = none then none
  else do
    let (hdr, s) ← header disk dev 0 s
    let signature ← s.load (hdr + 510) 2
    let (gptDisk, s) ← readMbr dev hdr signature s
    if gptDisk then (readGpt disk dev s).map fun s => (eok, s) else some (eok, s)

/-- The requests of `block_device_ioctl`. -/
inductive Request where
  | blkrrpart
  | blkgetsize
  | blkgetsize64
  | blksszget
  deriving DecidableEq

/-- The request with the given number. -/
def Request.ofNat? : ℕ → Option Request
  | 0x1000 => some .blkrrpart
  | 0x1001 => some .blkgetsize
  | 0x1002 => some .blkgetsize64
  | 0x1003 => some .blksszget
  | _ => none

/-- A case of `block_device_ioctl` that stores a number of `n` bytes at `args`. -/
def putArg (args n v : ℕ) (s : State) : ℤ × State :=
  if args = 0 then (-1, s) else (eok, s.store args (Bytes.ofNat n v))

def blockDeviceIoctl (disk : ℕ → UInt8) (self request args : ℕ) (s : State) : Option (ℤ × State) :=
  match Request.ofNat? request with
  | some .blkrrpart => readPartTable disk self s
  | some .blkgetsize => some (putArg args 4 (s.devs self).sectorCount s)
  | some .blkgetsize64 => some (putArg args 8 ((s.devs self).sectorCount * (s.devs self).sectorSize) s)
  | some .blksszget => some (putArg args 4 (s.devs self).sectorSize s)
  | none => some (einval, s)

/-- The descriptor that `block_device_register_drive` makes. -/
def registered (name sectorSize sectorCount read write driverData : ℕ) : BlockDevice where
  name := name
  type := .drive
  partitions := []
  parent := 0
  lbaOffset := 0
  sectorSize := sectorSize
  sectorCount := sectorCount
  read := read
  write := write
  ioctl := some .blockDeviceIoctl
  driverData := driverData
  slock := ⟨false, false⟩
  listNode := (0, 0)
  refCount := 0

/-- `list_append(&g_drive_list, &dev->list_node)`. -/
def linkDrive (dev : ℕ) (s : State) : State :=
  let devs :=
    match s.driveList.getLast? with
    | none => s.devs
    | some last =>
      let devs := update s.devs last { s.devs last with listNode := ((s.devs last).listNode.1, dev) }
      update devs dev { devs dev with listNode := (last, 0) }
  { s with devs := devs, driveList := s.driveList ++ [dev] }

def blockDeviceRegisterDrive (name sectorSize sectorCount read write driverData : ℕ) (s : State) :
    Option State := do
  let (dev, s) ← heapAlloc sizeofBlockDevice s
  let (dup, s) ← strdup name s
  if dev = 0 then none
  else
    some (linkDrive dev { s with
      devs := update s.devs dev (registered dup sectorSize sectorCount read write driverData) })

/-- The drive at `dev` as `block_device_register_drive` leaves it, with any partitions. -/
structure Registered (dev : ℕ) (s : State) : Prop where
  mem : dev ∈ s.driveList
  ne_null : dev ≠ 0
  type : (s.devs dev).type = .drive
  parent : (s.devs dev).parent = 0
  ioctl : (s.devs dev).ioctl = some .blockDeviceIoctl

theorem linkDrive_devs (dev a : ℕ) (s : State) :
    ∃ node, (linkDrive dev s).devs a = { s.devs a with listNode := node } := by
  unfold linkDrive
  cases s.driveList.getLast? with
  | none => exact ⟨_, rfl⟩
  | some last =>
    simp only [update_apply]
    split_ifs <;> subst_vars <;> exact ⟨_, rfl⟩

variable {s s' : State} {dev entries fuel hdr i : ℕ} {disk : ℕ → UInt8}

theorem registered_of_register {name sectorSize sectorCount read write driverData : ℕ}
    (h : blockDeviceRegisterDrive name sectorSize sectorCount read write driverData s = some s') :
    Registered (s.heap s.taken) s' := by
  unfold blockDeviceRegisterDrive at h
  obtain ⟨⟨dev, s₁⟩, ha, h⟩ := bind_eq_some_iff.mp h
  obtain ⟨⟨dup, s₂⟩, -, h⟩ := bind_eq_some_iff.mp h
  obtain ⟨hnull, hlinked⟩ := ite_none_left_eq_some.mp h
  obtain ⟨-, ha⟩ := ite_none_right_eq_some.mp ha
  cases ha
  cases hlinked
  obtain ⟨node, hnode⟩ := linkDrive_devs (s.heap s.taken) (s.heap s.taken) { s₂ with
    devs := update s₂.devs (s.heap s.taken)
      (registered dup sectorSize sectorCount read write driverData) }
  simp only [update_self] at hnode
  exact
    { mem := mem_append_right _ (mem_singleton.mpr rfl)
      ne_null := hnull
      type := by rw [hnode]; rfl
      parent := by rw [hnode]; rfl
      ioctl := by rw [hnode]; rfl }

/-! ## What is on the disk -/

structure MbrEntry where
  type : ℕ
  lbaStart : ℕ
  sectorCount : ℕ

def mbrEntries (disk : ℕ → UInt8) : List MbrEntry :=
  (List.range 4).map fun i =>
    let p := 446 + 16 * i
    ⟨Bytes.le disk (p + 4) 1, Bytes.le disk (p + 8) 4, Bytes.le disk (p + 12) 4⟩

/-- The partitions in the MBR before a protective entry: first sector and number of sectors. -/
def mbrPartitions (disk : ℕ → UInt8) : List (ℕ × ℕ) :=
  (((mbrEntries disk).takeWhile fun e => e.type ≠ 0xEE).filter fun e =>
    e.lbaStart ≠ 0 ∧ e.sectorCount ≠ 0).map fun e => (e.lbaStart, e.sectorCount)

/-- The first and the last sector in each entry of the GPT on the disk. -/
def gptEntries (disk : ℕ → UInt8) (sectorSize : ℕ) : List (ℕ × ℕ) :=
  let hdr := sectorSize
  let table := Bytes.le disk (hdr + 72) 8 * sectorSize
  (List.range (Bytes.le disk (hdr + 80) 4)).map fun i =>
    let p := table + i * Bytes.le disk (hdr + 84) 4
    (Bytes.le disk (p + 32) 8, Bytes.le disk (p + 40) 8)

/-- The partitions in the GPT: first sector and number of sectors. -/
def gptPartitions (disk : ℕ → UInt8) (sectorSize : ℕ) : List (ℕ × ℕ) :=
  ((gptEntries disk sectorSize).filter fun e => e.1 ≠ 0 ∧ e.2 ≠ 0).map fun e =>
    (e.1, (e.2 + 2 ^ 64 - e.1 + 1) % 2 ^ 64)

/-- The partitions that the disk describes, in the order of the tables. -/
def described (disk : ℕ → UInt8) (sectorSize : ℕ) : List (ℕ × ℕ) :=
  if Bytes.le disk 510 2 = 0xAA55 then
    mbrPartitions disk ++
      if (mbrEntries disk).any (fun e => e.type = 0xEE) ∧ Bytes.le disk sectorSize 8 = efiPart then
        gptPartitions disk sectorSize
      else []
  else []

/-- From `s` to `s'` the device keeps all its fields but `partitions`, to which one partition of the
drive has been added for each element of the list, in order. -/
def Added (dev : ℕ) (parts : List (ℕ × ℕ)) (s s' : State) : Prop :=
  ∃ added : List ℕ,
    s'.devs dev = { s.devs dev with partitions := (s.devs dev).partitions ++ added } ∧
      added.map (fun p => ((s'.devs p).parent, (s'.devs p).lbaOffset, (s'.devs p).sectorCount)) =
        parts.map fun e => (dev, e.1, e.2)

/-- The request `BLKRRPART` completes, and adds what the disk describes. -/
def Scans (disk : ℕ → UInt8) (dev args : ℕ) (s : State) : Prop :=
  ∃ s', blockDeviceIoctl disk dev 0x1000 args s = some (eok, s') ∧
    Added dev (described disk (s.devs dev).sectorSize) s s'

/-! ## What the scan sees

The scan reads its tables where the overwritten pointers lead. These say that they show no partition
there. -/

/-- `gpt_disk` after the loop over the MBR, if none of the entries it comes to is used. -/
def mbrBlank (load : ℕ → ℕ → Option ℕ) (hdr : ℕ) : List ℕ → Option Bool
  | [] => some false
  | i :: is =>
    match mbrSlot load (hdr + 446 + 16 * i) with
    | some .protective => some true
    | some .empty => mbrBlank load hdr is
    | _ => none

/-- No GPT entry from `i` on is used. -/
def EntriesBlank (load : ℕ → ℕ → Option ℕ) (hdr entries i : ℕ) : Prop :=
  ∃ count, load (hdr + 80) 4 = some count ∧ ∀ j, i ≤ j → j < count →
    ∃ size, load (hdr + 84) 4 = some size ∧ gptSlot load (gptEntryAt entries size j) = some none

/-- The second header has no signature, or its table fits and no entry is used. -/
def GptBlank (disk : ℕ → UInt8) (dev : ℕ) (s : State) : Prop :=
  ∃ hdr s₁, header disk dev 1 s = some (hdr, s₁) ∧ ∃ signature, s₁.load hdr 8 = some signature ∧
    (signature = efiPart →
      ∃ entries s₂, gptTable disk dev hdr s₁ = some (entries, s₂) ∧ EntriesBlank s₂.load hdr entries 0)

/-- The first header has no signature, or no entry before a protective one is used and what follows a
protective one shows no partition. -/
def Blank (disk : ℕ → UInt8) (dev : ℕ) (s : State) : Prop :=
  ∃ hdr s₁, header disk dev 0 s = some (hdr, s₁) ∧
    ∃ signature, s₁.load (hdr + 510) 2 = some signature ∧ (signature = 0xAA55 →
      ∃ gptDisk, mbrBlank s₁.load hdr [0, 1, 2, 3] = some gptDisk ∧
        (gptDisk = true → GptBlank disk dev s₁))

/-! ## One step each -/

theorem State.load_lt {p n v : ℕ} (h : s.load p n = some v) : v < 256 ^ n := by
  obtain ⟨-, h⟩ := ite_none_right_eq_some.mp h
  cases h
  have hlt := Bytes.toNat_lt ((List.range n).map fun k => s.mem (p + k))
  rwa [length_map, length_range] at hlt

theorem heapAlloc_devs {size a : ℕ} (h : heapAlloc size s = some (a, s')) : s'.devs = s.devs := by
  obtain ⟨-, h⟩ := ite_none_right_eq_some.mp h
  cases h
  rfl

theorem header_inv {lba : ℕ} (h : header disk dev lba s = some (hdr, s')) :
    s'.devs = s.devs ∧ (s.devs dev).sectorSize ≤ 8 := by
  obtain ⟨⟨a, s₁⟩, ha, h⟩ := bind_eq_some_iff.mp h
  obtain ⟨p, hp, h⟩ := bind_eq_some_iff.mp h
  obtain ⟨-, rfl⟩ := Prod.mk.inj (Option.some.inj h)
  obtain ⟨hlen, -⟩ := ite_none_right_eq_some.mp hp
  rw [transfer, length_map, length_range, Nat.one_mul, heapAlloc_devs ha] at hlen
  exact ⟨heapAlloc_devs ha, hlen⟩

theorem gptTable_devs (h : gptTable disk dev hdr s = some (entries, s')) : s'.devs = s.devs := by
  obtain ⟨count, -, h⟩ := bind_eq_some_iff.mp h
  obtain ⟨size, -, h⟩ := bind_eq_some_iff.mp h
  obtain ⟨⟨a, s₁⟩, ha, h⟩ := bind_eq_some_iff.mp h
  obtain ⟨lba, -, h⟩ := bind_eq_some_iff.mp h
  obtain ⟨-, h⟩ := ite_none_left_eq_some.mp h
  cases h
  have hdevs := heapAlloc_devs ha
  exact hdevs

theorem addPartition_parent {name lbaOffset sectorCount : ℕ}
    (h : addPartition dev name lbaOffset sectorCount s = some s') : (s'.devs dev).parent = dev := by
  unfold addPartition at h
  obtain ⟨⟨part, s₁⟩, -, h⟩ := bind_eq_some_iff.mp h
  obtain ⟨⟨dup, s₂⟩, -, h⟩ := bind_eq_some_iff.mp h
  obtain ⟨-, h⟩ := ite_none_left_eq_some.mp h
  cases h
  simp only [linkFirst, update_self]
  by_cases hpart : dev = part
  · subst hpart
    simp only [update_self, BlockDevice.asPartition]
  · simp only [update_of_ne hpart, update_self, BlockDevice.asPartition]

/-! ## The loops -/

theorem mbrLoop_cases {is : List ℕ} {g : Bool} (h : mbrLoop dev hdr is s = some (g, s')) :
    (mbrBlank s.load hdr is = some g ∧ s' = s) ∨ (s'.devs dev).parent = dev := by
  induction is generalizing s with
  | nil =>
    obtain ⟨rfl, rfl⟩ := Prod.mk.inj (Option.some.inj h)
    exact .inl ⟨rfl, rfl⟩
  | cons i is ih =>
    rw [mbrLoop] at h
    rw [mbrBlank]
    match hslot : mbrSlot s.load (hdr + 446 + 16 * i), h with
    | some .protective, h =>
      obtain ⟨rfl, rfl⟩ := Prod.mk.inj (Option.some.inj h)
      exact .inl ⟨rfl, rfl⟩
    | some .empty, h => exact ih h
    | some (.used lbaStart sectorCount), h =>
      obtain ⟨s₁, hadd, h⟩ := bind_eq_some_iff.mp h
      obtain ⟨-, rfl⟩ | hmark := ih h
      · exact .inr (addPartition_parent hadd)
      · exact .inr hmark

theorem mbrLoop_of_blank {is : List ℕ} {g : Bool} (h : mbrBlank s.load hdr is = some g) :
    mbrLoop dev hdr is s = some (g, s) := by
  induction is with
  | nil => exact congrArg (Option.map (·, s)) h
  | cons i is ih =>
    rw [mbrBlank] at h
    rw [mbrLoop]
    match hslot : mbrSlot s.load (hdr + 446 + 16 * i), h with
    | some .protective, h => exact congrArg (Option.map (·, s)) h
    | some .empty, h => exact ih h

theorem gptLoop_cases (h : gptLoop dev hdr entries fuel i s = some s') :
    s' = s ∨ (s'.devs dev).parent = dev := by
  induction fuel generalizing i s with
  | zero => exact .inl (Option.some.inj h).symm
  | succ fuel ih =>
    obtain ⟨count, -, h⟩ := bind_eq_some_iff.mp h
    split_ifs at h with hi
    · obtain ⟨size, -, h⟩ := bind_eq_some_iff.mp h
      match gptSlot s.load (gptEntryAt entries size i), h with
      | some none, h => exact ih h
      | some (some _), h =>
        obtain ⟨s₁, hadd, h⟩ := bind_eq_some_iff.mp h
        obtain rfl | hmark := ih h
        · exact .inr (addPartition_parent hadd)
        · exact .inr hmark
    · exact .inl (Option.some.inj h).symm

theorem gptLoop_count (hfuel : 0 < fuel) (h : gptLoop dev hdr entries fuel i s = some s') :
    ∃ count, s.load (hdr + 80) 4 = some count := by
  cases fuel with
  | zero => exact absurd hfuel (Nat.lt_irrefl 0)
  | succ fuel =>
    obtain ⟨count, hcount, -⟩ := bind_eq_some_iff.mp h
    exact ⟨count, hcount⟩

theorem gptLoop_blank {count : ℕ} (hcount : s.load (hdr + 80) 4 = some count)
    (hfuel : count ≤ i + fuel) (h : gptLoop dev hdr entries fuel i s = some s')
    (hmark : (s'.devs dev).parent ≠ dev) : EntriesBlank s.load hdr entries i := by
  induction fuel generalizing i with
  | zero => exact ⟨count, hcount, fun j hij hj => absurd hj (by omega)⟩
  | succ fuel ih =>
    rw [gptLoop, hcount] at h
    by_cases hi : i < count
    · obtain ⟨size, hsize, h⟩ := bind_eq_some_iff.mp ((if_pos hi).symm.trans h)
      match hslot : gptSlot s.load (gptEntryAt entries size i), h with
      | some none, h =>
        obtain ⟨count', hcount', hrest⟩ := ih (by omega) h
        refine ⟨count', hcount', fun j hij hj => ?_⟩
        obtain rfl | hlt := Nat.eq_or_lt_of_le hij
        · exact ⟨size, hsize, hslot⟩
        · exact hrest j hlt hj
      | some (some _), h =>
        obtain ⟨s₁, hadd, h⟩ := bind_eq_some_iff.mp h
        obtain rfl | hmark' := gptLoop_cases h
        · exact absurd (addPartition_parent hadd) hmark
        · exact absurd hmark' hmark
    · exact ⟨count, hcount, fun j hij hj => absurd hj (by omega)⟩

theorem gptLoop_of_blank (h : EntriesBlank s.load hdr entries i) :
    gptLoop dev hdr entries fuel i s = some s := by
  induction fuel generalizing i with
  | zero => rfl
  | succ fuel ih =>
    obtain ⟨count, hcount, hrest⟩ := h
    have hnext : EntriesBlank s.load hdr entries (i + 1) :=
      ⟨count, hcount, fun j hij hj => hrest j (by omega) hj⟩
    rw [gptLoop, hcount]
    by_cases hi : i < count
    · obtain ⟨size, hsize, hslot⟩ := hrest i (Nat.le_refl i) hi
      simp only [bind_eq_bind, Option.bind_some, if_pos hi, hsize, hslot]
      exact ih hnext
    · simp only [bind_eq_bind, Option.bind_some, if_neg hi]

/-! ## The scan of a drive -/

theorem readGpt_cases (h : readGpt disk dev s = some s') :
    (GptBlank disk dev s ∧ s'.devs = s.devs) ∨ (s'.devs dev).parent = dev := by
  obtain ⟨⟨hdr, s₁⟩, hhdr, h⟩ := bind_eq_some_iff.mp h
  obtain ⟨signature, hsig, h⟩ := bind_eq_some_iff.mp h
  by_cases hmark : (s'.devs dev).parent = dev
  · exact .inr hmark
  refine .inl ?_
  split_ifs at h with hefi
  · obtain ⟨⟨entries, s₂⟩, htable, h⟩ := bind_eq_some_iff.mp h
    have hsame : s' = s₂ := (gptLoop_cases h).resolve_right hmark
    obtain ⟨count, hcount⟩ := gptLoop_count (by decide) h
    have hfuel : count ≤ 0 + uintCount := by
      rw [Nat.zero_add]
      exact (State.load_lt hcount).le
    have hblank := gptLoop_blank hcount hfuel h hmark
    refine ⟨⟨hdr, s₁, hhdr, signature, hsig, fun _ => ⟨entries, s₂, htable, hblank⟩⟩, ?_⟩
    rw [hsame, gptTable_devs htable, (header_inv hhdr).1]
  · cases h
    exact ⟨⟨hdr, s', hhdr, signature, hsig, fun h => absurd h hefi⟩, (header_inv hhdr).1⟩

theorem readGpt_of_blank (h : GptBlank disk dev s) :
    ∃ s', readGpt disk dev s = some s' ∧ s'.devs = s.devs := by
  obtain ⟨hdr, s₁, hhdr, signature, hsig, htail⟩ := h
  by_cases hefi : signature = efiPart
  · obtain ⟨entries, s₂, htable, hblank⟩ := htail hefi
    have hloop : ((gptTable disk dev hdr s₁).bind fun r => gptLoop dev hdr r.1 uintCount 0 r.2) =
        some s₂ := bind_eq_some_iff.mpr ⟨(entries, s₂), htable, gptLoop_of_blank hblank⟩
    exact ⟨s₂, bind_eq_some_iff.mpr ⟨(hdr, s₁), hhdr,
      bind_eq_some_iff.mpr ⟨signature, hsig, (if_pos hefi).trans hloop⟩⟩,
      (gptTable_devs htable).trans (header_inv hhdr).1⟩
  · exact ⟨s₁, bind_eq_some_iff.mpr ⟨(hdr, s₁), hhdr,
      bind_eq_some_iff.mpr ⟨signature, hsig, if_neg hefi⟩⟩, (header_inv hhdr).1⟩

theorem readPartTable_cases {r : ℤ} (htype : (s.devs dev).type = .drive)
    (h : readPartTable disk dev s = some (r, s')) :
    (Blank disk dev s ∧ s'.devs = s.devs) ∨ (s'.devs dev).parent = dev := by
  rw [readPartTable, if_neg (not_not.mpr htype)] at h
  obtain ⟨-, h⟩ := ite_none_left_eq_some.mp h
  obtain ⟨⟨hdr, s₁⟩, hhdr, h⟩ := bind_eq_some_iff.mp h
  obtain ⟨signature, hsig, h⟩ := bind_eq_some_iff.mp h
  obtain ⟨⟨gptDisk, s₂⟩, hmbr, h⟩ := bind_eq_some_iff.mp h
  have hdevs := (header_inv hhdr).1
  -- what the rest of the scan does to the drive, from the state after the MBR
  have hrest : ((gptDisk = true → GptBlank disk dev s₂) ∧ s'.devs = s₂.devs) ∨
      (s'.devs dev).parent = dev := by
    cases gptDisk with
    | true =>
      obtain ⟨s₃, hgpt, h⟩ := map_eq_some_iff.mp h
      obtain ⟨-, rfl⟩ := Prod.mk.inj h
      obtain ⟨hblank, hsame⟩ | hmark := readGpt_cases hgpt
      · exact .inl ⟨fun _ => hblank, hsame⟩
      · exact .inr hmark
    | false =>
      obtain ⟨-, rfl⟩ := Prod.mk.inj (Option.some.inj h)
      exact .inl ⟨nofun, rfl⟩
  obtain ⟨hblank, hsame⟩ | hmark := hrest
  · rw [readMbr] at hmbr
    by_cases h55 : signature = 0xAA55
    · rw [if_pos h55] at hmbr
      obtain ⟨hmbr, rfl⟩ | hmark := mbrLoop_cases hmbr
      · exact .inl ⟨⟨hdr, s₂, hhdr, signature, hsig, fun _ => ⟨gptDisk, hmbr, hblank⟩⟩, hsame.trans hdevs⟩
      · exact .inr (by rw [hsame]; exact hmark)
    · rw [if_neg h55] at hmbr
      obtain ⟨-, rfl⟩ := Prod.mk.inj (Option.some.inj hmbr)
      exact .inl ⟨⟨hdr, s₁, hhdr, signature, hsig, fun h => absurd h h55⟩, hsame.trans hdevs⟩
  · exact .inr hmark

theorem readPartTable_of_blank (htype : (s.devs dev).type = .drive)
    (hset : ¬((s.devs dev).read = 0 ∨ (s.devs dev).write = 0 ∨ (s.devs dev).ioctl = none))
    (h : Blank disk dev s) : ∃ s', readPartTable disk dev s = some (eok, s') ∧ s'.devs = s.devs := by
  obtain ⟨hdr, s₁, hhdr, signature, hsig, htail⟩ := h
  have hdevs := (header_inv hhdr).1
  simp only [readPartTable, if_neg (not_not.mpr htype), if_neg hset, hhdr, hsig, bind_eq_bind,
    Option.bind_some]
  by_cases h55 : signature = 0xAA55
  · obtain ⟨gptDisk, hmbr, hblank⟩ := htail h55
    rw [readMbr, if_pos h55, mbrLoop_of_blank hmbr]
    cases gptDisk with
    | true =>
      obtain ⟨s₂, hgpt, hsame⟩ := readGpt_of_blank (hblank rfl)
      refine ⟨s₂, ?_, hsame.trans hdevs⟩
      simp only [Option.bind_some, if_true, hgpt, map_some]
    | false => exact ⟨s₁, rfl, hdevs⟩
  · rw [readMbr, if_neg h55]
    exact ⟨s₁, rfl, hdevs⟩

theorem readPartTable_wide (htype : (s.devs dev).type = .drive)
    (hwide : 8 < (s.devs dev).sectorSize) : readPartTable disk dev s = none := by
  rw [readPartTable, if_neg (not_not.mpr htype)]
  refine eq_none_iff_forall_ne_some.mpr fun r h => ?_
  obtain ⟨-, h⟩ := ite_none_left_eq_some.mp h
  obtain ⟨⟨hdr, s₁⟩, hhdr, -⟩ := bind_eq_some_iff.mp h
  have hle := (header_inv hhdr).2
  omega

theorem added_nil (h : s'.devs = s.devs) : Added dev [] s s' :=
  ⟨[], by rw [h, List.append_nil], rfl⟩

/-- The request `BLKRRPART` on a registered drive does what it is for exactly if the driver's functions
are there, the disk has no partitions and the memory that the scan reads shows none. -/
theorem scan_iff (disk : ℕ → UInt8) (dev args : ℕ) (s : State) (hreg : Registered dev s) :
    Scans disk dev args s ↔
      (s.devs dev).read ≠ 0 ∧ (s.devs dev).write ≠ 0 ∧ Blank disk dev s ∧
        described disk (s.devs dev).sectorSize = [] := by
  constructor
  · rintro ⟨s', hrun, added, hfields, hparts⟩
    have hkept : (s'.devs dev).parent = 0 := by
      rw [hfields]
      exact hreg.parent
    have hset := hrun
    rw [blockDeviceIoctl, Request.ofNat?, readPartTable, if_neg (not_not.mpr hreg.type)] at hset
    obtain ⟨hset, -⟩ := ite_none_left_eq_some.mp hset
    obtain ⟨hblank, hsame⟩ | hmark := readPartTable_cases hreg.type hrun
    · have hnil : added = [] := by
        have hlist := congrArg BlockDevice.partitions (hfields.symm.trans (congrFun hsame dev))
        exact append_right_eq_self.mp hlist
      rw [hnil, map_nil] at hparts
      exact ⟨fun h => hset (.inl h), fun h => hset (.inr (.inl h)), hblank, map_eq_nil_iff.mp hparts.symm⟩
    · exact absurd (hmark.symm.trans hkept) hreg.ne_null
  · rintro ⟨hread, hwrite, hblank, hnone⟩
    have hset : ¬((s.devs dev).read = 0 ∨ (s.devs dev).write = 0 ∨ (s.devs dev).ioctl = none) := by
      rw [hreg.ioctl]
      simp only [hread, hwrite, false_or, reduceCtorEq, not_false_eq_true]
    obtain ⟨s', hrun, hsame⟩ := readPartTable_of_blank hreg.type hset hblank
    exact ⟨s', hrun, hnone ▸ added_nil hsame⟩

/-- A state with one drive, at 4096, and no other bytes in memory than 0. -/
def oneDrive (sectorSize : ℕ) : State where
  mem := fun _ => 0
  mapped := fun _ => true
  devs := fun _ => registered 0 sectorSize 65536 1 2 0
  driveList := [4096]
  heap := fun n => 8192 + 1024 * n
  taken := 0

theorem oneDrive_registered (sectorSize : ℕ) : Registered 4096 (oneDrive sectorSize) where
  mem := mem_singleton.mpr rfl
  ne_null := by decide
  type := rfl
  parent := rfl
  ioctl := rfl

/-- A scan of an empty disk with sectors of 8 bytes. -/
theorem scan_empty : Scans (fun _ => 0) 4096 0 (oneDrive 8) := by
  have hblank : Blank (fun _ => 0) 4096 (oneDrive 8) :=
    ⟨0, { oneDrive 8 with taken := 1 }, rfl, 0, rfl, fun h => absurd h (by decide)⟩
  exact (scan_iff _ _ _ _ (oneDrive_registered 8)).mpr ⟨by decide, by decide, hblank, by decide⟩

/-- A disk with one partition in its MBR, of 4096 sectors from 2048 on. -/
def mbrDisk : ℕ → UInt8 :=
  Bytes.put (Bytes.put (fun _ => 0) 446 [0, 0, 0, 0, 0x83, 0, 0, 0, 0, 8, 0, 0, 0, 16, 0, 0]) 510
    [0x55, 0xAA]

/-- With sectors of 512 bytes the transfer of the first one runs over the stack. -/
theorem scan_overruns :
    Registered 4096 (oneDrive 512) ∧ described mbrDisk 512 = [(2048, 4096)] ∧
      blockDeviceIoctl mbrDisk 4096 0x1000 0 (oneDrive 512) = none ∧
      ¬Scans mbrDisk 4096 0 (oneDrive 512) := by
  have hnone : blockDeviceIoctl mbrDisk 4096 0x1000 0 (oneDrive 512) = none :=
    readPartTable_wide rfl (by decide)
  refine ⟨oneDrive_registered 512, by decide, hnone, ?_⟩
  rintro ⟨s', hrun, -⟩
  exact absurd (hnone.symm.trans hrun) (some_ne_none _).symm

end LykOS.Block
