import LykOS.Lib.Run
import LykOS.Syscalls.Fd

/-!
# Reading a file piece by piece

`syscall_read` hands the stored offset of the descriptor to the file system and leaves it as it is. So
each call of a sequence returns the bytes at the same offset, and the sequence reads the file only if the
bytes where each call should go on are those at the stored offset (`sequential_iff`).

The file system is the initial ramdisk, whose `read` cuts the size of the file to 32 bits and computes the
end of the read modulo `2 ^ 64`; a read that this makes run on does not return.
-/

namespace LykOS.Syscalls

open Run

/-! ## Files of the initial ramdisk -/

/-- A file of the initial ramdisk. -/
structure InitrdFile where
  content : List UInt8
  length_lt : content.length < 2 ^ 64

/-- `vn.size`. -/
def InitrdFile.size (f : InitrdFile) : UInt64 := UInt64.ofNat f.content.length

/-- `file_content_size`, which is a `uint`. -/
def InitrdFile.fileContentSize (f : InitrdFile) : UInt64 := f.size.toUInt32.toUInt64

/-- `read` of `fs/initrd.c`: the bytes copied to the buffer. The counter of the loop is a `uint`, which
stays below any size of more than 32 bits. -/
def InitrdFile.read (f : InitrdFile) (offset size : UInt64) : Option (List UInt8) :=
  if offset ≥ f.fileContentSize then some []
  else
    let size := if offset + size ≥ f.fileContentSize then f.fileContentSize - offset else size
    if size.toNat < 2 ^ 32 then some ((f.content.drop offset.toNat).take size.toNat) else none

/-- Where the file ends for `read`. -/
def InitrdFile.readEnd (f : InitrdFile) : ℕ := f.content.length % 2 ^ 32

/-- The end of the read is computed right, or is behind the end of the file anyway. -/
def InitrdFile.Fits (f : InitrdFile) (offset count : ℕ) : Prop :=
  offset < f.readEnd → offset + count < 2 ^ 64 ∨ f.readEnd ≤ offset + count - 2 ^ 64

theorem InitrdFile.readEnd_le (f : InitrdFile) : f.readEnd ≤ f.content.length := Nat.mod_le _ _

theorem InitrdFile.toNat_fileContentSize (f : InitrdFile) : f.fileContentSize.toNat = f.readEnd := by
  have hlt := f.length_lt
  simp only [fileContentSize, size, readEnd, UInt32.toNat_toUInt64, UInt64.toNat_toUInt32,
    UInt64.toNat_ofNat', Nat.mod_eq_of_lt hlt]

theorem InitrdFile.read_eq (f : InitrdFile) (offset count : UInt64) :
    (f.Fits offset.toNat count.toNat → f.read offset count =
        some ((f.content.drop offset.toNat).take (min count.toNat (f.readEnd - offset.toNat)))) ∧
      (¬f.Fits offset.toNat count.toNat → f.read offset count = none) := by
  have hend := f.toNat_fileContentSize
  have hlt : f.readEnd < 2 ^ 32 := Nat.mod_lt _ (by decide)
  have hoff := offset.toNat_lt
  have hcount := count.toNat_lt
  have hsum : (offset + count).toNat = (offset.toNat + count.toNat) % 2 ^ 64 := UInt64.toNat_add _ _
  unfold read
  by_cases h : offset ≥ f.fileContentSize
  · have hge : f.readEnd ≤ offset.toNat := hend ▸ UInt64.le_iff_toNat_le.mp h
    have hfits : f.Fits offset.toNat count.toNat := fun hin => absurd hin (Nat.not_lt.mpr hge)
    rw [if_pos h]
    exact ⟨fun _ => by simp [Nat.sub_eq_zero_of_le hge], fun hn => absurd hfits hn⟩
  · rw [if_neg h]
    rw [ge_iff_le, UInt64.le_iff_toNat_le, hend] at h
    by_cases h' : offset + count ≥ f.fileContentSize
    · have hsub : (f.fileContentSize - offset).toNat = f.readEnd - offset.toNat := by
        rw [UInt64.toNat_sub_of_le _ _ (UInt64.le_iff_toNat_le.mpr (by omega)), hend]
      simp only [if_pos h', hsub]
      rw [ge_iff_le, UInt64.le_iff_toNat_le, hend, hsum] at h'
      have hfits : f.Fits offset.toNat count.toNat := fun _ => by omega
      rw [if_pos (by omega), Nat.min_eq_right (by omega)]
      exact ⟨fun _ => rfl, fun hn => absurd hfits hn⟩
    · simp only [if_neg h']
      rw [ge_iff_le, UInt64.le_iff_toNat_le, hend, hsum] at h'
      -- without a carry the read ends inside the file; with one the count has more than 32 bits
      by_cases hcarry : offset.toNat + count.toNat < 2 ^ 64
      · have hfits : f.Fits offset.toNat count.toNat := fun _ => Or.inl hcarry
        rw [if_pos (by omega), Nat.min_eq_left (by omega)]
        exact ⟨fun _ => rfl, fun hn => absurd hfits hn⟩
      · rw [if_neg (by omega)]
        refine ⟨fun hfits => ?_, fun _ => rfl⟩
        have := hfits (by omega)
        omega

theorem take_drop_eq_iff {α : Type*} {l : List α} {s p a n : ℕ} (ha : a ≤ l.length - s) :
    (l.drop s).take a = (l.drop p).take n ↔
      a = min n (l.length - p) ∧ ∀ k < a, l[s + k]? = l[p + k]? := by
  have hlen : ((l.drop s).take a).length = a := by simp [ha]
  have hlen' : ((l.drop p).take n).length = min n (l.length - p) := by simp
  constructor
  · intro heq
    have hal : a = min n (l.length - p) := by rw [← hlen, heq, hlen']
    refine ⟨hal, fun k hk => ?_⟩
    have hget := congrArg (·[k]?) heq
    simpa [List.getElem?_take, hk, show k < n by omega] using hget
  · rintro ⟨hal, hget⟩
    refine List.ext_getElem? fun k => ?_
    by_cases hk : k < a
    · simpa [List.getElem?_take, hk, show k < n by omega] using hget k hk
    · rw [List.getElem?_eq_none (by omega), List.getElem?_eq_none (by omega)]

/-! ## Sequences of reads -/

section

variable {V S σ : Type}

/-- Behind the table are files of the initial ramdisk. `delivered` are the bytes that the reads so far have
put into their buffers, if all have returned. -/
structure ReadsInitrd (B : Backend V S σ) (file : V → InitrdFile) (delivered : σ → Option (List UInt8)) :
    Prop where
  size : ∀ k v, B.size k v = (file v).size
  returns : ∀ k v offset buf count data, (file v).read offset count = some data →
    (B.vfsRead k v offset buf count).1 = UInt64.ofNat data.length ∧
      (B.vfsRead k v offset buf count).2.1 = 0 ∧
      delivered (B.vfsRead k v offset buf count).2.2 = (delivered k).map (· ++ data)
  runsOn : ∀ k v offset buf count, (file v).read offset count = none →
    delivered (B.vfsRead k v offset buf count).2.2 = none

/-- A call of `syscall_read` with a buffer and a count. -/
def readStep (B : Backend V S σ) (fd : ℤ) (st : State V σ) (r : ℕ × UInt64) : Option (State V σ) :=
  (syscallRead B st fd r.1 r.2).map Prod.snd

def total (rs : List (ℕ × UInt64)) : ℕ := (rs.map fun r => r.2.toNat).sum

theorem total_cons (r : ℕ × UInt64) (rs : List (ℕ × UInt64)) :
    total (r :: rs) = r.2.toNat + total rs := by
  simp [total]

/-- After any number of the reads, the bytes delivered are those of the file from `pos` on, as many as
were asked for and are there. -/
def Sequential (B : Backend V S σ) (delivered : σ → Option (List UInt8)) (fd : ℤ) (f : InitrdFile)
    (pos : ℕ) (st : State V σ) (rs : List (ℕ × UInt64)) : Prop :=
  ∀ n, ∃ st', run (readStep B fd) st (rs.take n) = some st' ∧
    delivered st'.kernel = some ((f.content.drop pos).take (total (rs.take n)))

/-- A read of `count` bytes at `offset` finds what is at `pos`. -/
def SameBytes (f : InitrdFile) (offset pos count : ℕ) : Prop :=
  min count (f.readEnd - offset) = min count (f.content.length - pos) ∧
    ∀ k < min count (f.readEnd - offset), f.content[offset + k]? = f.content[pos + k]?

instance (f : InitrdFile) (offset count : ℕ) : Decidable (f.Fits offset count) :=
  inferInstanceAs (Decidable (_ → _))

instance (f : InitrdFile) (offset pos count : ℕ) : Decidable (SameBytes f offset pos count) :=
  inferInstanceAs (Decidable (_ ∧ _))

/-- Each read finds at the stored offset what is where it should go on. -/
def Rereads (f : InitrdFile) (offset pos : ℕ) (rs : List (ℕ × UInt64)) : Prop :=
  ∀ n r, rs[n]? = some r →
    f.Fits offset r.2.toNat ∧ SameBytes f offset (pos + total (rs.take n)) r.2.toNat

variable {fd : ℤ} {f : InitrdFile} {pos : ℕ} {st : State V σ} {res : Resource V} {v : V}

theorem rereads_cons {offset : ℕ} {r : ℕ × UInt64} {rs : List (ℕ × UInt64)} :
    Rereads f offset pos (r :: rs) ↔ (f.Fits offset r.2.toNat ∧ SameBytes f offset pos r.2.toNat) ∧
      Rereads f offset (pos + r.2.toNat) rs := by
  constructor
  · intro h
    refine ⟨h 0 r rfl, fun n r' hr' => ?_⟩
    have hn := h (n + 1) r' hr'
    rwa [List.take_succ_cons, total_cons, ← Nat.add_assoc] at hn
  · rintro ⟨hr, hrs⟩ n r' hr'
    cases n with
    | zero =>
      cases hr'
      exact hr
    | succ n =>
      rw [List.take_succ_cons, total_cons, ← Nat.add_assoc]
      exact hrs n r' hr'

variable {B : Backend V S σ} {file : V → InitrdFile} {delivered : σ → Option (List UInt8)}

theorem readStep_spec (R : ReadsInitrd B file delivered) (hslot : st.table.slot fd = some (some res))
    (hnode : res.node = some v) (hread : res.flags &&& resourceRead ≠ 0) (r : ℕ × UInt64) :
    ∃ k, readStep B fd st r = some { st with kernel := k } ∧
      delivered k = ((file v).read res.offset r.2).bind fun data =>
        (delivered st.kernel).map (· ++ data) := by
  refine ⟨(B.vfsRead st.kernel v res.offset r.1 r.2).2.2, ?_, ?_⟩
  · simp [readStep, syscallRead, withNode, resourceGet_of_slot hslot, hread, hnode]
  · cases hdata : (file v).read res.offset r.2 with
    | none => exact R.runsOn _ _ _ _ _ hdata
    | some data => exact (R.returns _ _ _ _ _ _ hdata).2.2

theorem sameBytes_iff {offset count : ℕ} :
    (f.content.drop offset).take (min count (f.readEnd - offset)) = (f.content.drop pos).take count ↔
      SameBytes f offset pos count := by
  have hend := f.readEnd_le
  exact take_drop_eq_iff (by omega)

theorem read_eq_some_iff {offset count : UInt64} :
    f.read offset count = some ((f.content.drop pos).take count.toNat) ↔
      f.Fits offset.toNat count.toNat ∧ SameBytes f offset.toNat pos count.toNat := by
  obtain ⟨hfits, hnot⟩ := f.read_eq offset count
  by_cases h : f.Fits offset.toNat count.toNat
  · rw [hfits h, Option.some_inj, sameBytes_iff]
    exact (and_iff_right h).symm
  · rw [hnot h]
    exact ⟨fun h' => absurd h' (Option.some_ne_none _).symm, fun h' => absurd h'.1 h⟩

/-- The reads deliver the bytes from `pos` on, after `log` has been delivered. -/
def Delivers (B : Backend V S σ) (delivered : σ → Option (List UInt8)) (fd : ℤ) (f : InitrdFile)
    (st : State V σ) (log : List UInt8) (pos : ℕ) (rs : List (ℕ × UInt64)) : Prop :=
  ∀ n, ∃ st', run (readStep B fd) st (rs.take n) = some st' ∧
    delivered st'.kernel = some (log ++ (f.content.drop pos).take (total (rs.take n)))

theorem delivers_nil {log : List UInt8} (hlog : delivered st.kernel = some log) (pos : ℕ) :
    Delivers B delivered fd f st log pos [] :=
  fun n => ⟨st, by simp, by simpa [total] using hlog⟩

theorem delivers_cons {st₁ : State V σ} {log : List UInt8} {r : ℕ × UInt64} {rs : List (ℕ × UInt64)}
    (hlog : delivered st.kernel = some log) (hstep : readStep B fd st r = some st₁) :
    Delivers B delivered fd f st log pos (r :: rs) ↔
      delivered st₁.kernel = some (log ++ (f.content.drop pos).take r.2.toNat) ∧
        Delivers B delivered fd f st₁ (log ++ (f.content.drop pos).take r.2.toNat)
          (pos + r.2.toNat) rs := by
  have hrun : ∀ n, run (readStep B fd) st ((r :: rs).take (n + 1)) =
      run (readStep B fd) st₁ (rs.take n) := by
    intro n
    rw [List.take_succ_cons, run_cons, hstep, Option.bind_some]
  have htake : ∀ n, log ++ (f.content.drop pos).take (total ((r :: rs).take (n + 1))) =
      log ++ (f.content.drop pos).take r.2.toNat ++
        (f.content.drop (pos + r.2.toNat)).take (total (rs.take n)) := by
    intro n
    rw [List.take_succ_cons, total_cons, List.take_add, List.drop_drop, List.append_assoc]
  constructor
  · intro h
    refine ⟨?_, fun n => ?_⟩
    · obtain ⟨st', hst', hdel⟩ := h 1
      rw [hrun, List.take_zero, run_nil] at hst'
      cases hst'
      rwa [htake, List.take_zero, show total [] = 0 from rfl, List.take_zero, List.append_nil] at hdel
    · obtain ⟨st', hst', hdel⟩ := h (n + 1)
      rw [hrun] at hst'
      rw [htake] at hdel
      exact ⟨st', hst', hdel⟩
  · rintro ⟨-, hrest⟩ n
    cases n with
    | zero => exact ⟨st, rfl, by simpa [total] using hlog⟩
    | succ n =>
      rw [hrun, htake]
      exact hrest n

theorem delivers_iff (R : ReadsInitrd B file delivered) (hnode : res.node = some v)
    (hread : res.flags &&& resourceRead ≠ 0) (rs : List (ℕ × UInt64)) :
    ∀ {st : State V σ} {log : List UInt8} (pos : ℕ), st.table.slot fd = some (some res) →
      delivered st.kernel = some log →
      (Delivers B delivered fd (file v) st log pos rs ↔ Rereads (file v) res.offset.toNat pos rs) := by
  induction rs with
  | nil =>
    intro st log pos _ hlog
    exact iff_of_true (delivers_nil hlog pos) fun n r hr => by simp at hr
  | cons r rs ih =>
    intro st log pos hslot hlog
    obtain ⟨k, hstep, hk⟩ := readStep_spec R hslot hnode hread r
    -- the slot keeps its offset, so the others read at the same one
    have hbytes : delivered k = some (log ++ ((file v).content.drop pos).take r.2.toNat) ↔
        (file v).read res.offset r.2 = some (((file v).content.drop pos).take r.2.toNat) := by
      rw [hk, hlog]
      cases (file v).read res.offset r.2 with
      | none => simp
      | some data => simp
    rw [delivers_cons hlog hstep, rereads_cons, ← read_eq_some_iff, ← hbytes]
    exact and_congr_right fun hdel => @ih ⟨st.table, k⟩ _ _ hslot hdel

/-! ## After a seek -/

theorem slot_setSlot {t t' : Table V} {r : Option (Resource V)} (h : t.setSlot fd r = some t') :
    t'.slot fd = some r := by
  obtain ⟨hin, heq⟩ := Option.ite_none_right_eq_some.mp h
  cases heq
  rw [Table.slot, if_neg (by omega), List.getElem?_set_self (by omega)]

/-- The offset that a descriptor has after a seek to `newOffset`. Those for which `syscall_seek` looks at no
resource keep the one they had. -/
def storedOffset (fd : ℤ) (res : Resource V) (newOffset : UInt64) : UInt64 :=
  if fd = 0 ∨ fd = 1 ∨ fd = 2 then res.offset else newOffset

theorem syscallSeek_spec {st₁ : State V σ} {offset newOffset : UInt64} {whence : ℤ}
    (hslot : st.table.slot fd = some (some res)) (hnode : res.node = some v)
    (h : syscallSeek B st fd offset whence = some (⟨newOffset, eok⟩, st₁)) :
    st₁.kernel = st.kernel ∧
      st₁.table.slot fd = some (some { res with offset := storedOffset fd res newOffset }) := by
  unfold syscallSeek at h
  unfold storedOffset
  split_ifs at h ⊢ with hfd
  · cases h
    exact ⟨rfl, hslot⟩
  · simp only [withNode, resourceGet_of_slot hslot, Option.bind_eq_bind, Option.bind_some,
      not_true_eq_false, if_false, hnode] at h
    have hfails : ¬fails st einval = some (⟨newOffset, eok⟩, st₁) := by simp [fails, einval, eok]
    split at h
    · exact absurd h hfails
    · split_ifs at h
      · exact absurd h hfails
      · obtain ⟨table, htable, heq⟩ := Option.map_eq_some_iff.mp h
        cases heq
        rw [hnode]
        exact ⟨rfl, slot_setSlot htable⟩

/-- After a seek, reads of any counts deliver the file from the new offset on, exactly if each read finds
at the stored offset of the descriptor, which no read changes, what is where it should go on. -/
theorem sequential_iff (R : ReadsInitrd B file delivered) {st st₁ : State V σ} {fd : ℤ}
    {offset newOffset : UInt64} {whence : ℤ} {res : Resource V} {v : V}
    (hslot : st.table.slot fd = some (some res)) (hnode : res.node = some v)
    (hread : res.flags &&& resourceRead ≠ 0) (hlog : delivered st.kernel = some [])
    (hseek : syscallSeek B st fd offset whence = some (⟨newOffset, eok⟩, st₁)) (rs : List (ℕ × UInt64)) :
    Sequential B delivered fd (file v) newOffset.toNat st₁ rs ↔
      Rereads (file v) (storedOffset fd res newOffset).toNat newOffset.toNat rs := by
  obtain ⟨hkernel, hslot₁⟩ := syscallSeek_spec hslot hnode hseek
  have hlog₁ : delivered st₁.kernel = some [] := by rw [hkernel, hlog]
  have hnode₁ : ({ res with offset := storedOffset fd res newOffset } : Resource V).node = some v := hnode
  exact delivers_iff R hnode₁ hread rs newOffset.toNat hslot₁ hlog₁

end

/-! ## One file -/

/-- Files of the initial ramdisk, which have no sockets and nothing to write to. The state is `none` once a
read has not returned. -/
def ramdiskBackend {V : Type} (file : V → InitrdFile) : Backend V Unit (Option (List UInt8)) where
  type _ _ := .reg
  size _ v := (file v).size
  mpData _ _ := none
  ioctl k _ _ _ := (0, k)
  vfsRead k v offset _ count :=
    match (file v).read offset count with
    | some data => (UInt64.ofNat data.length, 0, k.map (· ++ data))
    | none => (0, 0, none)
  vfsWrite k _ _ _ _ := (0, 0, k)
  bind k _ _ := (0, k)
  connect k _ _ := (0, k)
  listen k _ := (0, k)
  accept k s := (0, s, k)
  handle k _ := (none, k)

theorem ramdiskBackend_reads {V : Type} (file : V → InitrdFile) :
    ReadsInitrd (ramdiskBackend file) file id where
  size _ _ := rfl
  returns k v offset buf count data hdata := by simp [ramdiskBackend, hdata]
  runsOn k v offset buf count hdata := by simp [ramdiskBackend, hdata]

def threeBytes : InitrdFile := ⟨[10, 20, 30], by decide⟩

def openFile (offset : UInt64) : State Unit (Option (List UInt8)) :=
  ⟨⟨[none, none, none, some ⟨some (), offset, resourceRead ||| resourceWrite⟩], by simp⟩, some []⟩

def fourBytes : InitrdFile := ⟨[10, 20, 20, 30], by decide⟩

/-- Two reads of one byte after a seek to 1, where the file has the same byte twice. -/
theorem sequential_sample :
    Sequential (ramdiskBackend fun _ : Unit => fourBytes) id 3 fourBytes 1 (openFile 1)
      [(0, 1), (0, 1)] :=
  have hseek : syscallSeek (ramdiskBackend fun _ : Unit => fourBytes) (openFile 0) 3 1 0 =
      some (⟨1, eok⟩, openFile 1) := rfl
  (sequential_iff (ramdiskBackend_reads fun _ => fourBytes) rfl rfl (by decide) rfl hseek _).mpr
    (rereads_cons.mpr ⟨by decide, rereads_cons.mpr ⟨by decide, fun _ _ h => by simp at h⟩⟩)

/-- Two reads of one byte from the start of the file deliver the first byte twice. -/
theorem second_read_repeats :
    syscallSeek (ramdiskBackend fun _ : Unit => threeBytes) (openFile 0) 3 0 0 =
        some (⟨0, eok⟩, openFile 0) ∧
      (run (readStep (ramdiskBackend fun _ : Unit => threeBytes) 3) (openFile 0) [(0, 1), (0, 1)]).map
        State.kernel = some (some [10, 10]) ∧
      ¬Sequential (ramdiskBackend fun _ : Unit => threeBytes) id 3 threeBytes 0 (openFile 0)
        [(0, 1), (0, 1)] := by
  refine ⟨rfl, rfl, fun h => ?_⟩
  obtain ⟨st', hrun, hdel⟩ := h 2
  cases hrun
  exact absurd hdel (by decide)

end LykOS.Syscalls
