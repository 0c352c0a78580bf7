import LykOS.Syscalls.Read

/-!
# Reading a file of the initial ramdisk

The loop of `read` in `fs/initrd.c`, round by round. The size of the file is cut to 32 bits, the end
of the read is computed modulo `2 ^ 64`, and the counter is a `uint`. An end that wraps around is
taken for one inside the file, the count stays as it is, and the loop runs on behind the last byte
(`initrd_read_iff`). What the loop does when it ends is `InitrdFile.read` of `LykOS.Syscalls.Read`
(`initrdRead_eq_some`).
-/

namespace LykOS.Initrd

open Syscalls

/-- The loop: its counter, the pointer `file_content`, the bytes stored in the buffer and the addresses
they were read from. -/
structure Copy where
  i : UInt32
  fileContent : UInt64
  buffer : List UInt8
  accessed : List UInt64

/-- A round of the loop, if there is another one. -/
def copyRound (mem : UInt64 → UInt8) (size : UInt64) (c : Copy) : Copy :=
  if c.i.toUInt64 < size then
    { i := c.i + 1
      fileContent := c.fileContent + 1
      buffer := c.buffer ++ [mem c.fileContent]
      accessed := c.accessed ++ [c.fileContent] }
  else c

/-- What a call has done so far, and `*out` if it has returned (with `EOK`). -/
structure Progress where
  buffer : List UInt8
  accessed : List UInt64
  out : Option UInt64
  deriving DecidableEq, Repr

def readCount (fileContentSize offset size : UInt64) : UInt64 :=
  if offset + size ≥ fileContentSize then fileContentSize - offset else size

/-- `read(self, offset, buffer, size, &out)` after `n` rounds of its loop, for a node with these fields
`data` and `vn.size`. -/
def initrdRead (mem : UInt64 → UInt8) (data vnSize offset size : UInt64) (n : ℕ) : Progress :=
  let fileContentSize : UInt64 := vnSize.toUInt32.toUInt64
  if offset ≥ fileContentSize then ⟨[], [], some 0⟩
  else
    let size := readCount fileContentSize offset size
    let c := (copyRound mem size)^[n] ⟨0, data + offset, [], []⟩
    ⟨c.buffer, c.accessed, if c.i.toUInt64 < size then none else some c.i.toUInt64⟩

/-- The call returns `min(size, max(0, file size - offset))` bytes of the file, from `offset` on,
and reads nothing but bytes of the file on its way. -/
structure ReadsFile (mem : UInt64 → UInt8) (data vnSize offset size : UInt64) : Prop where
  returns : ∃ n, (initrdRead mem data vnSize offset size n).out =
      some (UInt64.ofNat (min size.toNat (vnSize.toNat - offset.toNat))) ∧
    (initrdRead mem data vnSize offset size n).buffer =
      (List.range (min size.toNat (vnSize.toNat - offset.toNat))).map fun j =>
        mem (data + UInt64.ofNat (offset.toNat + j))
  inside : ∀ n, ∀ a ∈ (initrdRead mem data vnSize offset size n).accessed,
    ∃ j < vnSize.toNat, a = data + UInt64.ofNat j

/-! ## The loop -/

section

variable {mem : UInt64 → UInt8} {start size : UInt64}

/-- The loop after `k` full rounds. -/
def copied (mem : UInt64 → UInt8) (start : UInt64) (k : ℕ) : Copy where
  i := UInt32.ofNat k
  fileContent := start + UInt64.ofNat k
  buffer := (List.range k).map fun j => mem (start + UInt64.ofNat j)
  accessed := (List.range k).map fun j => start + UInt64.ofNat j

theorem copied_zero : copied mem start 0 = ⟨0, start, [], []⟩ := by simp [copied]

theorem copied_i (k : ℕ) : (copied mem start k).i.toUInt64.toNat = k % 2 ^ 32 := by
  simp only [copied, UInt32.toNat_toUInt64, UInt32.toNat_ofNat']

theorem copyRound_copied {k : ℕ} (h : k % 2 ^ 32 < size.toNat) :
    copyRound mem size (copied mem start k) = copied mem start (k + 1) := by
  have hlt : (copied mem start k).i.toUInt64 < size := by
    rw [UInt64.lt_iff_toNat_lt, copied_i]
    exact h
  rw [copyRound, if_pos hlt]
  simp only [copied, List.range_succ, List.map_append, List.map_cons, List.map_nil, Copy.mk.injEq, and_true]
  constructor
  · rw [UInt32.ofNat_add]
    rfl
  · rw [UInt64.ofNat_add, UInt64.add_assoc]
    rfl

theorem copyRound_done {k : ℕ} (h : size.toNat ≤ k % 2 ^ 32) :
    copyRound mem size (copied mem start k) = copied mem start k := by
  rw [copyRound, if_neg]
  rw [UInt64.lt_iff_toNat_lt, copied_i]
  omega

theorem rounds_of_lt (h : size.toNat < 2 ^ 32) (n : ℕ) :
    (copyRound mem size)^[n] ⟨0, start, [], []⟩ = copied mem start (min n size.toNat) := by
  induction n with
  | zero => exact (Nat.zero_min _ ▸ copied_zero).symm
  | succ n ih =>
    rw [Function.iterate_succ_apply', ih]
    rcases Nat.lt_or_ge n size.toNat with hlt | hge
    · rw [Nat.min_eq_left (Nat.le_of_lt hlt), Nat.min_eq_left hlt, copyRound_copied (by omega)]
    · rw [Nat.min_eq_right hge, Nat.min_eq_right (by omega), copyRound_done (by omega)]

theorem rounds_of_ge (h : 2 ^ 32 ≤ size.toNat) (n : ℕ) :
    (copyRound mem size)^[n] ⟨0, start, [], []⟩ = copied mem start n := by
  induction n with
  | zero => exact copied_zero.symm
  | succ n ih =>
    rw [Function.iterate_succ_apply', ih]
    exact copyRound_copied (by omega)

end

/-! ## A call -/

section

variable {mem : UInt64 → UInt8} {data vnSize offset size : UInt64}

/-- The count is right unless the end of the read wraps around; then it has more than 32 bits. -/
theorem readCount_spec {fileSize : UInt64} (hfile : fileSize.toNat < 2 ^ 32)
    (hoff : offset.toNat < fileSize.toNat) :
    (offset.toNat + size.toNat < 2 ^ 64 →
        (readCount fileSize offset size).toNat = min size.toNat (fileSize.toNat - offset.toNat)) ∧
      (2 ^ 64 ≤ offset.toNat + size.toNat →
        2 ^ 32 ≤ (readCount fileSize offset size).toNat) := by
  have hsize := size.toNat_lt
  have hsum : (offset + size).toNat = (offset.toNat + size.toNat) % 2 ^ 64 := UInt64.toNat_add _ _
  have hsub : (fileSize - offset).toNat = fileSize.toNat - offset.toNat :=
    UInt64.toNat_sub_of_le _ _ (UInt64.le_iff_toNat_le.mpr (Nat.le_of_lt hoff))
  unfold readCount
  by_cases h : offset + size ≥ fileSize
  · rw [if_pos h, hsub]
    rw [ge_iff_le, UInt64.le_iff_toNat_le, hsum] at h
    omega
  · rw [if_neg h]
    rw [ge_iff_le, UInt64.le_iff_toNat_le, hsum] at h
    omega

theorem initrdRead_behind (h : vnSize.toUInt32.toUInt64 ≤ offset) (n : ℕ) :
    initrdRead mem data vnSize offset size n = ⟨[], [], some 0⟩ := if_pos h

theorem initrdRead_of_lt {k : ℕ} (hoff : offset < vnSize.toUInt32.toUInt64)
    (hk : (readCount vnSize.toUInt32.toUInt64 offset size).toNat = k) (h : k < 2 ^ 32) (n : ℕ) :
    initrdRead mem data vnSize offset size n =
      ⟨(copied mem (data + offset) (min n k)).buffer, (copied mem (data + offset) (min n k)).accessed,
        if n < k then none else some (UInt64.ofNat k)⟩ := by
  have hnot : ¬ offset ≥ vnSize.toUInt32.toUInt64 := UInt64.not_le.mpr hoff
  simp only [initrdRead, if_neg hnot, rounds_of_lt (hk ▸ h), hk, Progress.mk.injEq, true_and]
  have hi : (copied mem (data + offset) (min n k)).i.toUInt64.toNat = min n k := by
    rw [copied_i]
    omega
  have hcond : (copied mem (data + offset) (min n k)).i.toUInt64 <
      readCount vnSize.toUInt32.toUInt64 offset size ↔ n < k := by
    rw [UInt64.lt_iff_toNat_lt, hi, hk]
    omega
  rw [if_congr hcond rfl rfl]
  split_ifs with hn
  · rfl
  · rw [Option.some.injEq, ← UInt64.toNat_inj, hi, UInt64.toNat_ofNat']
    omega

theorem initrdRead_of_ge (hoff : offset < vnSize.toUInt32.toUInt64)
    (h : 2 ^ 32 ≤ (readCount vnSize.toUInt32.toUInt64 offset size).toNat) (n : ℕ) :
    initrdRead mem data vnSize offset size n =
      ⟨(copied mem (data + offset) n).buffer, (copied mem (data + offset) n).accessed, none⟩ := by
  have hnot : ¬ offset ≥ vnSize.toUInt32.toUInt64 := UInt64.not_le.mpr hoff
  have hcond : (copied mem (data + offset) n).i.toUInt64 <
      readCount vnSize.toUInt32.toUInt64 offset size := by
    rw [UInt64.lt_iff_toNat_lt, copied_i]
    omega
  simp only [initrdRead, if_neg hnot, rounds_of_ge h, if_pos hcond]

theorem address_eq (j : ℕ) :
    data + offset + UInt64.ofNat j = data + UInt64.ofNat (offset.toNat + j) := by
  rw [UInt64.ofNat_add, UInt64.ofNat_toNat, UInt64.add_assoc]

theorem copied_buffer {content : List UInt8}
    (hmem : ∀ j (hj : j < content.length), mem (data + UInt64.ofNat j) = content[j]) {k : ℕ}
    (hle : offset.toNat + k ≤ content.length) :
    (copied mem (data + offset) k).buffer = (content.drop offset.toNat).take k := by
  refine List.ext_getElem (by simp [copied]; omega) fun j hj _ => ?_
  have hj' : j < k := by simpa [copied] using hj
  simp only [copied, List.getElem_map, List.getElem_range, List.getElem_take, List.getElem_drop]
  rw [address_eq, hmem _ (by omega)]

/-- The loop ends with the bytes that `InitrdFile.read` has, and does not end where that has none. -/
theorem initrdRead_eq_some {f : InitrdFile} {bytes : List UInt8}
    (hmem : ∀ j (hj : j < f.content.length), mem (data + UInt64.ofNat j) = f.content[j]) :
    f.read offset size = some bytes ↔ ∃ n,
      (initrdRead mem data f.size offset size n).out = some (UInt64.ofNat bytes.length) ∧
        (initrdRead mem data f.size offset size n).buffer = bytes := by
  have hend := f.toNat_fileContentSize
  have hfile : f.fileContentSize.toNat < 2 ^ 32 := hend ▸ Nat.mod_lt _ (by decide)
  unfold InitrdFile.read
  by_cases hoff : offset ≥ f.fileContentSize
  · have hrun := @initrdRead_behind mem data f.size offset size hoff
    simp only [if_pos hoff, hrun]
    constructor
    · rintro ⟨⟩
      exact ⟨0, rfl, rfl⟩
    · rintro ⟨-, -, rfl⟩
      rfl
  · have hlt : offset < f.fileContentSize := UInt64.not_le.mp hoff
    have hlt' : offset.toNat < f.fileContentSize.toNat := UInt64.lt_iff_toNat_lt.mp hlt
    obtain ⟨hright, hwrong⟩ := @readCount_spec offset size f.fileContentSize hfile hlt'
    rw [if_neg hoff]
    show (if (readCount f.fileContentSize offset size).toNat < 2 ^ 32 then some
      ((f.content.drop offset.toNat).take (readCount f.fileContentSize offset size).toNat) else none) =
        some bytes ↔ _
    split_ifs with hcount
    · have hrun := @initrdRead_of_lt mem data f.size offset size
        (readCount f.fileContentSize offset size).toNat hlt rfl hcount
      set k := (readCount f.fileContentSize offset size).toNat with hk
      have hle : offset.toNat + k ≤ f.content.length := by
        have hreadEnd := f.readEnd_le
        omega
      have hbytes := copied_buffer hmem hle
      have hlen : ((f.content.drop offset.toNat).take k).length = k := by
        rw [List.length_take, List.length_drop]
        omega
      constructor
      · rintro ⟨⟩
        refine ⟨k, ?_, ?_⟩
        · rw [hrun, if_neg (Nat.lt_irrefl k), hlen]
        · rw [hrun, ← hbytes, Nat.min_self]
      · rintro ⟨n, hout, hbuf⟩
        rw [hrun] at hout hbuf
        have hn : k ≤ n := by
          by_contra hn
          rw [if_pos (Nat.lt_of_not_le hn)] at hout
          cases hout
        rw [← hbytes, ← hbuf, Nat.min_eq_right hn]
    · have hrun := @initrdRead_of_ge mem data f.size offset size hlt (Nat.le_of_not_lt hcount)
      simp only [hrun]
      exact ⟨fun h => (nomatch h), fun ⟨_, h, _⟩ => (nomatch h)⟩

theorem initrdRead_eq_some_sample :
    let f : InitrdFile := ⟨[7, 7], by decide⟩
    f.read 1 9 = some [7] ↔ ∃ n,
      (initrdRead (fun _ => 7) 0x1000 f.size 1 9 n).out = some (UInt64.ofNat 1) ∧
        (initrdRead (fun _ => 7) 0x1000 f.size 1 9 n).buffer = [7] :=
  initrdRead_eq_some (by decide)

/-- A file of less than 4 GiB is read as it should be exactly if the read starts behind its end, or
the end of the read does not wrap around. -/
theorem initrd_read_iff (mem : UInt64 → UInt8) (data : UInt64) (hfile : vnSize.toNat < 2 ^ 32)
    (offset size : UInt64) :
    ReadsFile mem data vnSize offset size ↔
      (offset.toNat < vnSize.toNat → offset.toNat + size.toNat < 2 ^ 64) := by
  have hcut : vnSize.toUInt32.toUInt64 = vnSize := by
    rw [← UInt64.toNat_inj, UInt32.toNat_toUInt64, UInt64.toNat_toUInt32, Nat.mod_eq_of_lt hfile]
  by_cases hoff : offset.toNat < vnSize.toNat
  · have hlt : offset < vnSize.toUInt32.toUInt64 := by rwa [hcut, UInt64.lt_iff_toNat_lt]
    obtain ⟨hright, hwrong⟩ := @readCount_spec offset size vnSize hfile hoff
    by_cases hcarry : offset.toNat + size.toNat < 2 ^ 64
    · refine iff_of_true ?_ fun _ => hcarry
      have hrun := @initrdRead_of_lt mem data vnSize offset size _ hlt (by rw [hcut, hright hcarry])
        (by omega)
      set k := min size.toNat (vnSize.toNat - offset.toNat) with hk
      refine ⟨⟨k, ?_, ?_⟩, fun n a ha => ?_⟩
      · rw [hrun, if_neg (Nat.lt_irrefl k)]
      · rw [hrun, Nat.min_self]
        exact List.map_congr_left fun j _ => congrArg mem (address_eq j)
      · rw [hrun] at ha
        obtain ⟨j, hj, rfl⟩ := List.mem_map.mp ha
        have hlt := List.mem_range.mp hj
        exact ⟨offset.toNat + j, by omega, address_eq j⟩
    · refine iff_of_false (fun h => ?_) fun h => hcarry (h hoff)
      obtain ⟨n, hout, -⟩ := h.returns
      rw [initrdRead_of_ge hlt (by rw [hcut]; exact hwrong (by omega))] at hout
      cases hout
  · refine iff_of_true ?_ fun h => absurd h hoff
    have hle : vnSize.toUInt32.toUInt64 ≤ offset := by
      rw [hcut, UInt64.le_iff_toNat_le]
      omega
    have hzero : min size.toNat (vnSize.toNat - offset.toNat) = 0 := by omega
    refine ⟨⟨0, ?_, ?_⟩, fun n a ha => ?_⟩
    · rw [initrdRead_behind hle, hzero]
      rfl
    · rw [initrdRead_behind hle, hzero]
      rfl
    · rw [initrdRead_behind hle] at ha
      cases ha

end

/-- A read of `2 ^ 64 - 1` bytes from offset 1 of a file of three bytes does not return. Its third
round reads the byte behind the file. -/
theorem initrd_read_runs_on :
    (∀ n, (initrdRead (fun _ => 0) 0x1000 3 1 0xFFFFFFFFFFFFFFFF n).out = none) ∧
      0x1003 ∈ (initrdRead (fun _ => 0) 0x1000 3 1 0xFFFFFFFFFFFFFFFF 3).accessed ∧
      ¬ ReadsFile (fun _ => 0) 0x1000 3 1 0xFFFFFFFFFFFFFFFF := by
  have hout : ∀ n, (initrdRead (fun _ => 0) 0x1000 3 1 0xFFFFFFFFFFFFFFFF n).out = none := fun n => by
    rw [initrdRead_of_ge (by decide) (by decide)]
  refine ⟨hout, by decide, fun h => ?_⟩
  obtain ⟨n, hn, -⟩ := h.returns
  rw [hout] at hn
  cases hn

theorem initrd_read_iff_sample :
    (3 : UInt64).toNat < 2 ^ 32 ∧ ReadsFile (fun _ => 0) 0x1000 3 1 5 := by
  have hfile : (3 : UInt64).toNat < 2 ^ 32 := by decide
  exact ⟨hfile, (initrd_read_iff (fun _ => 0) 0x1000 hfile 1 5).mpr fun _ => by decide⟩

end LykOS.Initrd
