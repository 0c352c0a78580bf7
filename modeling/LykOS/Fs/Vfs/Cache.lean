import LykOS.Fs.Vfs.Write
import LykOS.Lib.Run

/-!
# The page cache over whole runs

Runs of `vfs_write` and `vfs_read` on a cached vnode with a file behind it. What a read returns at a
position inside the initial file, or at one that was written, is the latest value there, and the file has it
too (`cached_reads_latest`).

The cache is not transparent: a cached read reports bytes past the end of the file, and a hole shows what
the frame held. Runs that read inside the file and leave no such hole cannot tell a cached vnode from one
that is not (`cached_run_transparent`).
-/

namespace LykOS.Vfs

open Run

/-- The calls, with 64-bit offsets and counts. -/
inductive CacheOp
  | write (offset : ℕ) (buffer : ℕ → UInt8) (count : ℕ) (h : offset < 2 ^ 64 ∧ count < 2 ^ 64)
  | read (offset : ℕ) (buffer : ℕ → UInt8) (count : ℕ) (h : offset < 2 ^ 64 ∧ count < 2 ^ 64)

/-! ## Read your writes -/

/-- The file, the store, and the latest value at each position inside the initial file or written. -/
structure CacheWorld where
  file : File
  store : Store
  latest : ℕ → Option UInt8

/-- The latest values after a write; position `x` is byte `x - offset` of it, in 64-bit arithmetic. -/
def latestAfter (latest : ℕ → Option UInt8) (offset : ℕ) (buffer : ℕ → UInt8) (count : ℕ) :
    ℕ → Option UInt8 := fun x =>
  let k := u64 (x + (2 ^ 64 - offset))
  if x < 2 ^ 64 ∧ k < count then some (buffer k) else latest x

def cacheStep (F : Frames) (w : CacheWorld) : CacheOp → Option CacheWorld
  | .write offset buffer count _ => do
    let r ← vfsWrite (fileVolume F true) w.file w.store offset buffer count
    return ⟨r.backend, r.store, latestAfter w.latest offset buffer count⟩
  | .read offset buffer count _ => do
    let r ← vfsRead ((fileVolume F true).machine w.file) w.store 0 offset buffer count
    return { w with store := r.store }

/-- A read succeeds with all bytes, and has the latest value wherever there is one. -/
def ReadsLatest (F : Frames) (w : CacheWorld) : CacheOp → Prop
  | .write .. => True
  | .read offset buffer count _ =>
    ∃ r, vfsRead ((fileVolume F true).machine w.file) w.store 0 offset buffer count = some r ∧
      r.status = eok ∧ r.out = some count ∧
      ∀ k < count, ∀ v, w.latest (u64 (offset + k)) = some v → r.buffer k = v

/-- The call returns, with the latest values if it is a read, and the file has them afterwards. -/
def ReadYourWrites (F : Frames) (w : CacheWorld) (op : CacheOp) : Prop :=
  ReadsLatest F w op ∧ ∃ w', cacheStep F w op = some w' ∧
    ∀ x v, w'.latest x = some v → w'.file.byte? x = some v

/-- The cache and the file have the latest values. -/
structure HasLatest (F : Frames) (w : CacheWorld) : Prop where
  caches : ∃ c, Caches F w.file c w.store ∧ ∀ x v, w.latest x = some v → c x = some v
  file : ∀ x v, w.latest x = some v → w.file.byte? x = some v

section

variable {F : Frames} {w : CacheWorld}

variable {n offset : ℕ} {buffer : ℕ → UInt8}

theorem latestAfter_round {latest : ℕ → Option UInt8} {done : ℕ} (hoff : offset < 2 ^ 64)
    (hdone : done + n < 2 ^ 64) (hn : u64 (offset + done) % archPageGran + n ≤ archPageGran) (y : ℕ) :
    latestAfter latest offset buffer (done + n) y =
      if u64 (offset + done) ≤ y ∧ y < u64 (offset + done) + n
      then some (buffer (done + (y - u64 (offset + done))))
      else latestAfter latest offset buffer done y := by
  unfold latestAfter
  dsimp only
  by_cases hin : u64 (offset + done) ≤ y ∧ y < u64 (offset + done) + n
  · have hk : y < 2 ^ 64 ∧ u64 (y + (2 ^ 64 - offset)) = done + (y - u64 (offset + done)) := by
      unfold u64 archPageGran at *
      omega
    rw [if_pos hin, if_pos ⟨hk.1, by omega⟩, hk.2]
  · have hk : y < 2 ^ 64 → (u64 (y + (2 ^ 64 - offset)) < done + n ↔
        u64 (y + (2 ^ 64 - offset)) < done) := by
      intro hy
      unfold u64 archPageGran at *
      omega
    rw [if_neg hin]
    by_cases hy : y < 2 ^ 64
    · simp only [hy, true_and, hk hy]
    · rw [if_neg fun h => hy h.1, if_neg fun h => hy h.1]

theorem byte?_write_of_not_mem {f : File} {x y : ℕ} {v : UInt8} (hout : ¬ (x ≤ y ∧ y < x + n))
    (h : f.byte? y = some v) : (f.write x buffer n).byte? y = some v := by
  have hlt : y < f.size := by
    unfold File.byte? at h
    split_ifs at h with hlt
    exact hlt
  have hsize : y < (f.write x buffer n).size := by
    unfold File.write
    dsimp only
    split_ifs <;> omega
  unfold File.byte? at h
  rw [if_pos hlt] at h
  rw [byte?_write, if_neg hout, if_pos hsize, h]

theorem latest_round {f : File} {c latest : ℕ → Option UInt8} {t : Store} {done : ℕ}
    (hoff : offset < 2 ^ 64) (hdone : done + n < 2 ^ 64)
    (hn : u64 (offset + done) % archPageGran + n ≤ archPageGran)
    (h : ∀ x v, latestAfter latest offset buffer done x = some v → c x = some v ∧ f.byte? x = some v) :
    let x := u64 (offset + done)
    let f' := f.write x (fun k => buffer (done + k)) n
    ∀ y v, latestAfter latest offset buffer (done + n) y = some v →
      nextBytes c t f' x buffer done n y = some v ∧ f'.byte? y = some v := by
  intro x f' y v hy
  rw [latestAfter_round hoff hdone hn] at hy
  unfold nextBytes
  by_cases hin : u64 (offset + done) ≤ y ∧ y < u64 (offset + done) + n
  · rw [if_pos hin] at hy ⊢
    exact ⟨hy, by rw [byte?_write, if_pos hin, hy]⟩
  · rw [if_neg hin] at hy ⊢
    obtain ⟨hc, hf⟩ := h y v hy
    have hf' : f'.byte? y = some v := byte?_write_of_not_mem hin hf
    refine ⟨?_, hf'⟩
    split_ifs
    · exact hf'
    · exact hc

theorem HasLatest.write (h : HasLatest F w) {count : ℕ} (buffer : ℕ → UInt8) (hoff : offset < 2 ^ 64)
    (hcount : count < 2 ^ 64) :
    ∃ r, vfsWrite (fileVolume F true) w.file w.store offset buffer count = some r ∧
      HasLatest F ⟨r.backend, r.store, latestAfter w.latest offset buffer count⟩ := by
  obtain ⟨c, hcaches, hc⟩ := h.caches
  let P : ℕ → File → (ℕ → Option UInt8) → Store → Prop := fun done f c _ =>
    ∀ x v, latestAfter w.latest offset buffer done x = some v → c x = some v ∧ f.byte? x = some v
  have hstart : P 0 w.file c w.store := by
    intro x v hx
    have hx : w.latest x = some v := by
      unfold latestAfter at hx
      rwa [if_neg fun hk => Nat.not_lt_zero _ hk.2] at hx
    exact ⟨hc x v hx, h.file x v hx⟩
  obtain ⟨r, c', hr, -, -, hcaches', hP⟩ := writeLoop_induction (P := P)
    (fun done f c s t g whole hlt _ hP _ => latest_round hoff
      (by have := roundCount_le (u64 (offset + done)) (count - done); omega)
      (roundCount_page _ _) hP)
    (count + 1) 0 w.file c w.store hcaches hstart (Nat.zero_le _) (Nat.lt_succ_self _)
  exact ⟨r, hr, ⟨c', hcaches', fun x v hx => (hP x v hx).1⟩, fun x v hx => (hP x v hx).2⟩

theorem HasLatest.next (h : HasLatest F w) (op : CacheOp) :
    ∃ w', cacheStep F w op = some w' ∧ HasLatest F w' := by
  cases op with
  | write offset buffer count hop =>
    obtain ⟨r, hr, hlatest⟩ := h.write buffer hop.1 hop.2
    refine ⟨_, ?_, hlatest⟩
    simp only [cacheStep, hr, Option.bind_eq_bind, Option.bind_some]
    rfl
  | read offset buffer count hop =>
    obtain ⟨c, hcaches, hc⟩ := h.caches
    obtain ⟨r, hr, -, -, hcaches', -⟩ := hcaches.vfsRead offset buffer count
    refine ⟨{ w with store := r.store }, ?_, ⟨c, hcaches', hc⟩, h.file⟩
    simp only [cacheStep, hr, Option.bind_eq_bind, Option.bind_some]
    rfl

theorem HasLatest.readsLatest (h : HasLatest F w) (op : CacheOp) : ReadsLatest F w op := by
  cases op with
  | write offset buffer count hop => trivial
  | read offset buffer count hop =>
    obtain ⟨c, hcaches, hc⟩ := h.caches
    obtain ⟨r, hr, hstatus, hout, -, hbytes⟩ := hcaches.vfsRead offset buffer count
    exact ⟨r, hr, hstatus, hout, fun k hk v hv => hbytes k hk v (hc _ v hv)⟩

end

/-- From a cache that agrees with the file, every call of every run returns, every byte that is read is
the latest one, and the file has it after every call. -/
theorem cached_reads_latest {F : Frames} {f : File} {s : Store} (h : Caches F f f.byte? s)
    (ops : List CacheOp) :
    Meets (cacheStep F) (ReadYourWrites F) ⟨f, s, f.byte?⟩ ops := by
  have hstart : HasLatest F ⟨f, s, f.byte?⟩ := ⟨⟨f.byte?, h, fun _ _ hx => hx⟩, fun _ _ hx => hx⟩
  refine meets_of_step (fun w op hw _ => ?_) (fun w op w' hw _ hs => ?_) hstart (meets_true _ _)
  · obtain ⟨w', hs, hw'⟩ := hw.next op
    exact ⟨hw.readsLatest op, w', hs, hw'.file⟩
  · obtain ⟨w'', hs', hw'⟩ := hw.next op
    cases hs.symm.trans hs'
    exact hw'

theorem caches_empty (F : Frames) (f : File) {s : Store} (h : ∀ po, s.pageCache 0 po = none) :
    Caches F f f.byte? s := by
  refine ⟨fun _ _ => rfl, fun x g v hx => ?_, fun po g n hpo => ?_, fun po po' g hpo => ?_⟩
  · rw [h] at hx
    cases hx
  · rw [h] at hpo
    cases hpo
  · rw [h] at hpo
    cases hpo

def sampleFrames : Frames where
  frames n := n * archPageGran
  injective := mul_archPageGran_injective
  aligned := mul_archPageGran_mod

def sampleFile : File := ⟨2, fun x => if x = 0 then 5 else 6⟩

def sampleStore : Store := ⟨fun _ _ => 9, fun _ _ => none, 0⟩

/-- A write across the end of a page, and a read of the same bytes. -/
theorem cached_reads_latest_sample :
    Meets (cacheStep sampleFrames) (ReadYourWrites sampleFrames)
      ⟨sampleFile, sampleStore, sampleFile.byte?⟩
      [.write 4095 (fun _ => 7) 2 (by decide), .read 4095 (fun _ => 0) 2 (by decide)] :=
  cached_reads_latest (caches_empty _ _ fun _ => rfl) _

/-! ## Transparency -/

/-- A cached vnode with its file and its store, and the file of the same vnode without a cache. -/
structure TwinWorld where
  file : File
  store : Store
  plain : File

/-- The call on both vnodes. The one that is not cached leaves the store alone. -/
def twinStep (F : Frames) (w : TwinWorld) : CacheOp → Option TwinWorld
  | .write offset buffer count _ => do
    let r ← vfsWrite (fileVolume F true) w.file w.store offset buffer count
    let p ← vfsWrite (fileVolume F false) w.plain w.store offset buffer count
    return ⟨r.backend, r.store, p.backend⟩
  | .read offset buffer count _ => do
    let r ← vfsRead ((fileVolume F true).machine w.file) w.store 0 offset buffer count
    return { w with store := r.store }

/-- A read reports the same count on both vnodes, and returns the same bytes. -/
def Transparent (F : Frames) (w : TwinWorld) : CacheOp → Prop
  | .write .. => True
  | .read offset buffer count _ =>
    ∃ r p, vfsRead ((fileVolume F true).machine w.file) w.store 0 offset buffer count = some r ∧
      vfsRead ((fileVolume F false).machine w.plain) w.store 0 offset buffer count = some p ∧
      r.status = p.status ∧ r.out = p.out ∧ ∀ n, r.out = some n → ∀ k < n, r.buffer k = p.buffer k

/-- Reads inside the file; writes that do not wrap around, and leave a hole only in pages that are not
in the cache and that they do not write to. -/
def CleanOp (w : TwinWorld) : CacheOp → Prop
  | .write offset _ count _ =>
    count = 0 ∨ (offset + count ≤ 2 ^ 64 ∧ ∀ x, w.file.size ≤ x → x < offset →
      w.store.pageCache 0 (pageOf x) = none ∧ pageOf x ≠ pageOf offset)
  | .read offset _ count _ => count = 0 ∨ (offset + count ≤ 2 ^ 64 ∧ offset + count ≤ w.file.size)

/-- The two files are one, and the cache has its bytes. -/
structure Twins (F : Frames) (w : TwinWorld) : Prop where
  same : w.plain = w.file
  caches : Caches F w.file w.file.byte? w.store

section

variable {F : Frames} {w : TwinWorld}

theorem write_zero (f : File) (offset : ℕ) (buffer : ℕ → UInt8) : f.write offset buffer 0 = f := by
  have hbytes : memcpy f.bytes offset buffer 0 0 = f.bytes := by
    funext k
    exact if_neg (by omega)
  unfold File.write
  rw [if_pos rfl, hbytes]

theorem write_write (f : File) (offset : ℕ) (buffer : ℕ → UInt8) {m n : ℕ} (hn : 0 < n) :
    (f.write offset buffer m).write (offset + m) (fun k => buffer (m + k)) n =
      f.write offset buffer (m + n) := by
  have hsize : ((f.write offset buffer m).write (offset + m) (fun k => buffer (m + k)) n).size =
      (f.write offset buffer (m + n)).size := by
    unfold File.write
    dsimp only
    split_ifs <;> omega
  have hbytes : ((f.write offset buffer m).write (offset + m) (fun k => buffer (m + k)) n).bytes =
      (f.write offset buffer (m + n)).bytes := by
    funext x
    unfold File.write memcpy
    dsimp only
    by_cases hsecond : offset + m ≤ x ∧ x < offset + m + n
    · rw [if_pos hsecond, if_pos (by omega)]
      exact congrArg buffer (by omega)
    · by_cases hfirst : offset ≤ x ∧ x < offset + m
      · rw [if_neg hsecond, if_pos hfirst, if_pos (by omega)]
      · rw [if_neg hsecond, if_neg hfirst, if_neg (by omega)]
  exact congrArg₂ File.mk hsize hbytes

/-- A clean round of a write keeps the bytes of the cache those of the file. -/
theorem clean_round {f : File} {t : Store} {x n src : ℕ} {buffer : ℕ → UInt8}
    (hgap : ∀ y, f.size ≤ y → y < x → t.pageCache 0 (pageOf y) = none) :
    let f' := f.write x (fun k => buffer (src + k)) n
    nextBytes f.byte? t f' x buffer src n = f'.byte? := by
  intro f'
  funext y
  unfold nextBytes
  by_cases hin : x ≤ y ∧ y < x + n
  · rw [if_pos hin, byte?_write, if_pos hin]
  · rw [if_neg hin]
    split_ifs with hpage
    · rfl
    · rw [byte?_write, if_neg hin]
      have hsize : y < f.size ↔ y < f'.size := by
        have hno : f.size ≤ y → ¬ y < x := fun hle hlt => hpage (hgap y hle hlt)
        unfold f' File.write
        dsimp only
        split_ifs <;> omega
      unfold File.byte?
      simp only [hsize]
      rfl

theorem Twins.write (h : Twins F w) {offset count : ℕ} (buffer : ℕ → UInt8) (hoff : offset < 2 ^ 64)
    (hclean : count = 0 ∨ (offset + count ≤ 2 ^ 64 ∧ ∀ x, w.file.size ≤ x → x < offset →
      w.store.pageCache 0 (pageOf x) = none ∧ pageOf x ≠ pageOf offset)) :
    ∃ r, vfsWrite (fileVolume F true) w.file w.store offset buffer count = some r ∧
      r.backend = w.file.write offset buffer count ∧ Caches F r.backend r.backend.byte? r.store := by
  -- only the first round can meet a hole, and it starts from the store before the call
  let P : ℕ → File → (ℕ → Option UInt8) → Store → Prop := fun done f c s =>
    c = f.byte? ∧ f = w.file.write offset buffer done ∧ (done = 0 → s = w.store)
  have hstart : P 0 w.file w.file.byte? w.store :=
    ⟨rfl, (write_zero w.file offset buffer).symm, fun _ => rfl⟩
  have hround : ∀ done f c s t g whole, done < count → Caches F f c s → P done f c s →
      HasPage F c s (pageOf (u64 (offset + done))) whole g t →
      let x := u64 (offset + done)
      let n := roundCount x (count - done)
      let f' := f.write x (fun k => buffer (done + k)) n
      P (done + n) f' (nextBytes c t f' x buffer done n)
        (t.setMem g (memcpy (t.mem g) (x % archPageGran) buffer done n)) := by
    rintro done f c s t g whole hlt - ⟨rfl, rfl, hs⟩ hpage x n f'
    obtain ⟨hend, hhole⟩ := hclean.resolve_left (by omega)
    have hx : x = offset + done := u64_of_lt (by omega)
    have hn : 0 < n := roundCount_pos x (by omega)
    refine ⟨clean_round fun y hle hy => ?_, ?_, fun hzero => absurd hzero (by omega)⟩
    · rcases Nat.eq_zero_or_pos done with rfl | hpos
      · rw [write_zero] at hle
        obtain ⟨hnone, hne⟩ := hhole y hle (by omega)
        have hpo : pageOf y ≠ pageOf (u64 (offset + 0)) := by
          rwa [u64_of_lt (by omega), Nat.add_zero]
        rw [hpage.others _ hpo, hs rfl]
        exact hnone
      · unfold File.write at hle
        dsimp only at hle
        rw [if_neg (by omega)] at hle
        omega
    · unfold f'
      rw [hx]
      exact write_write w.file offset buffer hn
  obtain ⟨r, c', hr, -, -, hcaches, rfl, hfile, -⟩ := writeLoop_induction hround (count + 1) 0 w.file
    w.file.byte? w.store h.caches hstart (Nat.zero_le _) (Nat.lt_succ_self _)
  exact ⟨r, hr, hfile, hcaches⟩

theorem Twins.step (h : Twins F w) {op : CacheOp} (hclean : CleanOp w op) {w' : TwinWorld}
    (hs : twinStep F w op = some w') : Twins F w' := by
  cases op with
  | write offset buffer count hop =>
    obtain ⟨r, hr, hfile, hcaches⟩ := h.write buffer hop.1 hclean
    simp only [twinStep, hr, Option.bind_eq_bind, Option.bind_some, Option.bind_eq_some_iff,
      Option.pure_def, Option.some.injEq] at hs
    obtain ⟨p, hp, rfl⟩ := hs
    cases hp
    exact ⟨by rw [hfile, h.same], hcaches⟩
  | read offset buffer count hop =>
    obtain ⟨r, hr, -, -, hcaches, -⟩ := h.caches.vfsRead offset buffer count
    simp only [twinStep, hr, Option.bind_eq_bind, Option.bind_some, Option.pure_def,
      Option.some.injEq] at hs
    exact hs ▸ ⟨h.same, hcaches⟩

theorem Twins.transparent (h : Twins F w) {op : CacheOp} (hclean : CleanOp w op) :
    Transparent F w op := by
  cases op with
  | write offset buffer count hop => trivial
  | read offset buffer count hop =>
    obtain ⟨r, hr, hstatus, hout, -, hbytes⟩ := h.caches.vfsRead offset buffer count
    have hlen : (w.plain.read offset count).2.length = count := by
      rw [h.same]
      unfold File.read
      rw [List.length_map, List.length_range]
      unfold CleanOp at hclean
      omega
    refine ⟨r, _, hr, rfl, hstatus, ?_, fun n hn k hk => ?_⟩
    · rw [hout]
      exact congrArg some hlen.symm
    · cases hout.symm.trans hn
      obtain ⟨hend, hsize⟩ := hclean.resolve_left (Nat.ne_zero_of_lt hk)
      have hbyte : w.file.byte? (offset + k) = some (w.file.bytes (offset + k)) :=
        if_pos (by omega)
      have hplain : fill buffer (w.plain.read offset count).2 k = w.file.bytes (offset + k) := by
        rw [fill_read _ hk, h.same, hbyte]
        rfl
      refine (hbytes k hk _ ?_).trans hplain.symm
      rw [u64_of_lt (by omega), hbyte]

end

/-- From a cache that agrees with the file, in a run of clean calls every read reports the same count,
and returns the same bytes, as on a vnode that is not cached. -/
theorem cached_run_transparent {F : Frames} {f : File} {s : Store} (h : Caches F f f.byte? s)
    {ops : List CacheOp} (hclean : Meets (twinStep F) CleanOp ⟨f, s, f⟩ ops) :
    Meets (twinStep F) (Transparent F) ⟨f, s, f⟩ ops :=
  meets_of_step (I := Twins F) (fun _ _ hw hop => hw.transparent hop)
    (fun _ _ _ hw hop hs => hw.step hop hs) ⟨rfl, h⟩ hclean

/-- A byte is appended, and the file is read. -/
theorem cached_run_transparent_sample :
    Meets (twinStep sampleFrames) (Transparent sampleFrames) ⟨sampleFile, sampleStore, sampleFile⟩
      [.write 2 (fun _ => 7) 1 (by decide), .read 0 (fun _ => 0) 3 (by decide)] := by
  refine cached_run_transparent (caches_empty _ _ fun _ => rfl) ⟨Or.inr ⟨by decide, ?_⟩, fun w hw => ?_⟩
  · intro x hle hlt
    exact absurd (Nat.lt_of_le_of_lt hle hlt) (by decide)
  · cases hw
    exact ⟨Or.inr (by decide), fun _ _ => trivial⟩

/-- A read across the end of the file reports two bytes without a cache, and three with one. -/
theorem cached_read_past_end :
    ∃ r p, vfsRead ((fileVolume sampleFrames true).machine sampleFile) sampleStore 0 0 (fun _ => 0) 3 =
        some r ∧
      vfsRead ((fileVolume sampleFrames false).machine sampleFile) sampleStore 0 0 (fun _ => 0) 3 =
        some p ∧
      r.out = some 3 ∧ r.buffer 2 = 9 ∧ p.out = some 2 :=
  ⟨_, _, rfl, rfl, by decide +kernel, by decide +kernel, by decide +kernel⟩

end LykOS.Vfs
