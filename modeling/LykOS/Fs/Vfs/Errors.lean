import LykOS.Fs.Vfs.Cache

/-!
# Errors of the backend

`vfs_read` and `vfs_write` on a cached vnode whose backend keeps a file but may fail. A read that fails
frees its `vnode_page_t`, but not the frame. A write that fails has put its bytes into the cache before, and
that the read of a page that is to be written in part fails is ignored. `io_error_safe_iff` says which failed
calls do no harm: the bytes of the round that failed, those of a hole and those of the pages that were loaded
on the way must be as in the file.
-/

namespace LykOS.Vfs

variable {β : Type}

/-- The backend keeps a file. A failed read may leave anything in the buffer, and a failed write has
written some first bytes. -/
structure FileBacked (V : Volume β) (file : β → File) : Prop where
  cached : ∀ b, (V.vnode b).cached = true
  read : ∀ b offset count, ((V.vnode b).read offset count).1 = eok →
    (V.vnode b).read offset count = (file b).read offset count
  write : ∀ b offset buffer count, (V.write b offset buffer count).1 = eok →
    file (V.write b offset buffer count).2.2 = (file b).write offset buffer count
  failed : ∀ b offset buffer count, (V.write b offset buffer count).1 ≠ eok →
    ∃ m ≤ count, file (V.write b offset buffer count).2.2 = (file b).write offset buffer m

/-- After a call that takes the store from `s` to `t` and leaves the backend in `b`: the frames that it took
are in the page cache, the cached bytes inside the file are those of the file, and a later `vfs_read` that
succeeds returns them. -/
structure ErrorSafe (V : Volume β) (file : β → File) (b : β) (s t : Store) : Prop where
  frames : ∀ n, s.taken ≤ n → n < t.taken → ∃ po, t.pageCache 0 po = some (V.frames n)
  caches : Caches V.toFrames (file b) (file b).byte? t
  reads : ∀ offset buffer count r, vfsRead (V.machine b) t 0 offset buffer count = some r → r.status = eok →
    ∀ k < count, ∀ v, (file b).byte? (u64 (offset + k)) = some v → r.buffer k = v

section

variable {V : Volume β} {file : β → File} (hV : FileBacked V file) {b : β}

include hV

/-! ## Reads -/

theorem cachePage_backed (s : Store) (po : ℕ) :
    cachePage (V.machine b) s 0 po = cachePage ((fileVolume V.toFrames true).machine (file b)) s 0 po ∨
    ∃ st bytes, st ≠ eok ∧
      cachePage (V.machine b) s 0 po = (.error st, s.alloc.setMem (V.frames s.taken) bytes) := by
  unfold cachePage
  cases s.pageCache 0 po with
  | some g => exact Or.inl rfl
  | none =>
    dsimp only
    by_cases hst : ((V.vnode b).read po archPageGran).1 = eok
    · let load := fun res : ℤ × List UInt8 =>
        let t := s.alloc.setMem (V.frames s.taken) (fill (s.mem (V.frames s.taken)) res.2)
        if res.1 ≠ eok then ((.error res.1, t) : Except ℤ ℕ × Store)
        else (.ok (V.frames s.taken), t.addPage 0 po (V.frames s.taken))
      exact Or.inl (congrArg load (hV.read b po _ hst))
    · exact Or.inr ⟨_, _, hst, if_pos hst⟩

variable {count offset : ℕ}

theorem readLoop_backed : ∀ (n done : ℕ) (buffer : ℕ → UInt8) (s : Store)
    {r : ReadResult},
    readLoop (V.machine b) 0 offset count n done buffer s = some r → r.status = eok →
    readLoop ((fileVolume V.toFrames true).machine (file b)) 0 offset count n done buffer s = some r := by
  intro n
  induction n with
  | zero => exact fun _ _ _ _ h => (nomatch h)
  | succ n ih =>
    intro done buffer s r h hr
    unfold readLoop at h ⊢
    split_ifs at h ⊢ with hlt
    · dsimp only at h ⊢
      rcases cachePage_backed hV (b := b) s (u64 (offset + done) - u64 (offset + done) % archPageGran) with
        heq | ⟨st, bytes, hst, heq⟩
      · rw [heq, cachePage_file] at h
        rw [cachePage_file]
        exact ih _ _ _ h hr
      · rw [heq] at h
        cases h
        exact absurd hr hst
    · exact h

theorem vfsRead_eq_readLoop (s : Store) (offset : ℕ) (buffer : ℕ → UInt8) (count : ℕ) :
    vfsRead (V.machine b) s 0 offset buffer count =
      readLoop (V.machine b) 0 offset count (count + 1) 0 buffer s := if_pos (hV.cached b)

theorem vfsRead_backed {s : Store} (h : Caches V.toFrames (file b) (file b).byte? s)
    {buffer : ℕ → UInt8} {r : ReadResult}
    (hr : vfsRead (V.machine b) s 0 offset buffer count = some r) (hst : r.status = eok) :
    ∀ k < count, ∀ v, (file b).byte? (u64 (offset + k)) = some v → r.buffer k = v := by
  obtain ⟨r', hr', -, -, -, hbytes⟩ := h.vfsRead offset buffer count
  rw [vfsRead_eq_readLoop hV] at hr
  have hsame : some r' = some r := hr'.symm.trans (readLoop_backed hV _ _ _ _ hr hst)
  cases hsame
  exact hbytes

theorem readLoop_error : ∀ (n done : ℕ) (buffer : ℕ → UInt8) (s : Store)
    {r : ReadResult},
    Caches V.toFrames (file b) (file b).byte? s →
    readLoop (V.machine b) 0 offset count n done buffer s = some r → r.status ≠ eok →
    Caches V.toFrames (file b) (file b).byte? r.store ∧ ∃ n, s.taken ≤ n ∧ n < r.store.taken ∧
      ∀ po, r.store.pageCache 0 po ≠ some (V.frames n) := by
  intro n
  induction n with
  | zero => exact fun _ _ _ _ _ h => (nomatch h)
  | succ n ih =>
    intro done buffer s r hs h hr
    unfold readLoop at h
    split_ifs at h with hlt
    · dsimp only at h
      let po := u64 (offset + done) - u64 (offset + done) % archPageGran
      rcases cachePage_backed hV (b := b) s po with heq | ⟨st, bytes, hst, heq⟩
      · rw [heq] at h
        have hgrows := (cachePage_grows ((fileVolume V.toFrames true).machine (file b)) s 0 po).1.taken
        rw [cachePage_file] at h hgrows
        obtain ⟨hcaches, n, hle, hn⟩ := ih _ _ _ (hs.hasPage (writePage_spec hs po false)) h hr
        exact ⟨hcaches, n, Nat.le_trans hgrows hle, hn⟩
      · rw [heq] at h
        cases h
        have hfree : ∀ po, s.pageCache 0 po ≠ some (V.frames s.taken) := fun po hpo =>
          hs.used po _ s.taken hpo le_rfl rfl
        refine ⟨⟨fun _ _ => rfl, fun x g v hx hv => ?_, fun po g n hpo hn => ?_, hs.inj⟩,
          s.taken, le_rfl, Nat.lt_succ_self _, hfree⟩
        · have hg : g ≠ V.frames s.taken := by
            rintro rfl
            exact hfree _ hx
          rw [setMem_of_ne s.alloc hg bytes]
          exact hs.cache x g v hx hv
        · exact hs.used po g n hpo (Nat.le_of_succ_le hn)
    · cases h
      exact absurd rfl hr

end

/-! ## Writes -/

/-- The pages stay, and the frames that are taken are those of new pages. -/
structure Kept (F : Frames) (s t : Store) : Prop where
  taken : s.taken ≤ t.taken
  pages : ∀ po g, s.pageCache 0 po = some g → t.pageCache 0 po = some g
  frames : ∀ n, s.taken ≤ n → n < t.taken → ∃ po, t.pageCache 0 po = some (F.frames n)

theorem Kept.trans {F : Frames} {s t u : Store} (h : Kept F s t) (h' : Kept F t u) : Kept F s u := by
  refine ⟨Nat.le_trans h.taken h'.taken, fun po g hpo => h'.pages po g (h.pages po g hpo),
    fun n hle hlt => ?_⟩
  by_cases hn : n < t.taken
  · obtain ⟨po, hpo⟩ := h.frames n hle hn
    exact ⟨po, h'.pages po _ hpo⟩
  · exact h'.frames n (Nat.le_of_not_lt hn) hlt

theorem Kept.refl (F : Frames) (s : Store) : Kept F s s :=
  ⟨le_rfl, fun _ _ h => h, fun _ hle hlt => absurd hlt (Nat.not_lt_of_le hle)⟩

theorem writePage_kept (V : Volume β) (b : β) (s : Store) (po : ℕ) (whole : Bool) :
    Kept V.toFrames s (writePage V b s po whole).2 := by
  unfold writePage
  cases hc : s.pageCache 0 po with
  | some g => exact Kept.refl V.toFrames s
  | none =>
    dsimp only
    generalize (if whole = true then s.mem (V.frames s.taken) else _) = bytes
    have hnone : (s.alloc.setMem (V.frames s.taken) bytes).pageCache 0 po = none := hc
    have hcache : ∀ po', ((s.alloc.setMem (V.frames s.taken) bytes).addPage 0 po
        (V.frames s.taken)).pageCache 0 po' =
          if po' = po then some (V.frames s.taken) else s.pageCache 0 po' :=
      addPage_pageCache_apply hnone
    refine ⟨?_, fun po' g hpo' => ?_, fun n hle hlt => ⟨po, ?_⟩⟩
    · rw [addPage_taken]
      exact Nat.le_succ s.taken
    · have hne : po' ≠ po := by
        rintro rfl
        exact Option.some_ne_none g (hpo'.symm.trans hc)
      rw [hcache, if_neg hne, hpo']
    · rw [addPage_taken] at hlt
      obtain rfl : n = s.taken := Nat.le_antisymm (Nat.le_of_lt_succ hlt) hle
      rw [hcache, if_pos rfl]

/-- The store after a round of `vfs_write` at `x` copied the next of `left` bytes, from `src` on. -/
def roundStore (V : Volume β) (b : β) (s : Store) (x : ℕ) (buffer : ℕ → UInt8) (src left : ℕ) : Store :=
  let n := roundCount x left
  let (frame, t) := writePage V b s (pageOf x) (x % archPageGran = 0 ∧ n = archPageGran)
  t.setMem frame (memcpy (t.mem frame) (x % archPageGran) buffer src n)

theorem roundStore_kept (V : Volume β) (b : β) (s : Store) (x : ℕ) (buffer : ℕ → UInt8) (src left : ℕ) :
    Kept V.toFrames s (roundStore V b s x buffer src left) := by
  have hkept := writePage_kept V b s (pageOf x) (x % archPageGran = 0 ∧ roundCount x left = archPageGran)
  exact ⟨hkept.taken, hkept.pages, hkept.frames⟩

theorem writeLoop_succ (V : Volume β) {offset count done : ℕ} (buffer : ℕ → UInt8) (n : ℕ) (b : β)
    (s : Store) (hlt : done < count) :
    let x := u64 (offset + done)
    let res := V.write b x (fun k => buffer (done + k)) (roundCount x (count - done))
    let t := roundStore V b s x buffer done (count - done)
    writeLoop V offset buffer count (n + 1) done b s =
      if res.1 ≠ eok then some ⟨res.1, none, res.2.2, t⟩
      else writeLoop V offset buffer count n (done + roundCount x (count - done)) res.2.2 t := by
  intro x res t
  rw [writeLoop, if_pos hlt]
  rfl

/-- The cached byte at `y`. -/
def Store.cached? (s : Store) (y : ℕ) : Option UInt8 :=
  (s.pageCache 0 (pageOf y)).map fun g => s.mem g (y % archPageGran)

theorem caches_iff {F : Frames} {f : File} {s : Store} (h : Framed F s) :
    Caches F f f.byte? s ↔ ∀ y v, s.cached? y = some v → y < f.size → v = f.bytes y := by
  unfold Store.cached?
  constructor
  · intro hc y v hv hlt
    obtain ⟨g, hg, rfl⟩ := Option.map_eq_some_iff.mp hv
    exact hc.cache y g _ hg (if_pos hlt)
  · refine fun hall => ⟨fun _ _ => rfl, fun y g v hg hv => ?_, h.used, h.inj⟩
    unfold File.byte? at hv
    split_ifs at hv with hlt
    rw [← Option.some.inj hv]
    exact hall y _ (by rw [hg, Option.map_some]) hlt

/-- What the frame of a new page has after the read of the page, whether it fails or not. -/
def prefill (V : Volume β) (b : β) (s : Store) (po : ℕ) : ℕ → UInt8 :=
  fill (s.mem (V.frames s.taken)) ((V.vnode b).read po archPageGran).2

/-- The cached bytes with those of the page `po`. -/
def loadedBytes (V : Volume β) (b : β) (s : Store) (po y : ℕ) : Option UInt8 :=
  (s.cached? y).or (if pageOf y = po then some (prefill V b s po (y % archPageGran)) else none)

section

variable {V : Volume β} {b : β} {s : Store}

theorem writePage_loads (h : Framed V.toFrames s) (po : ℕ) (whole : Bool) :
    HasPage V.toFrames (loadedBytes V b s po) s po whole (writePage V b s po whole).1
      (writePage V b s po whole).2 := by
  unfold writePage
  cases hc : s.pageCache 0 po with
  | some g =>
    refine ⟨hc, fun _ _ => rfl, fun _ _ => rfl, fun _ x v hx hv => ?_, h.used, fun po' hpo' => ?_⟩
    · unfold loadedBytes Store.cached? at hv
      rw [hx, hc, Option.map_some, Option.some_or] at hv
      exact Option.some.inj hv
    · exact h.inj po' po g hpo' hc
  | none =>
    refine hasPage_new h hc _ fun hpart x v hx hv => ?_
    unfold loadedBytes Store.cached? at hv
    rw [hx, hc, Option.map_none, Option.none_or, if_pos rfl] at hv
    rw [hpart, if_neg Bool.false_ne_true]
    exact Option.some.inj hv

theorem roundStore_framed (h : Framed V.toFrames s) (x : ℕ) (buffer : ℕ → UInt8) (src left : ℕ) :
    Framed V.toFrames (roundStore V b s x buffer src left) := by
  have hpage := writePage_loads (b := b) h (pageOf x)
    (x % archPageGran = 0 ∧ roundCount x left = archPageGran)
  exact ⟨hpage.used, hpage.frames_inj h⟩

theorem roundStore_cached (h : Framed V.toFrames s) (x : ℕ) (buffer : ℕ → UInt8) (src left y : ℕ) :
    (roundStore V b s x buffer src left).cached? y =
      if x ≤ y ∧ y < x + roundCount x left then some (buffer (src + (y - x)))
      else loadedBytes V b s (pageOf x) y := by
  have hpage := writePage_loads (b := b) h (pageOf x)
    (x % archPageGran = 0 ∧ roundCount x left = archPageGran)
  have hn := roundCount_page x left
  have hx := pageOf_add_mod x
  have hy := pageOf_add_mod y
  have hmod : y % archPageGran < archPageGran := Nat.mod_lt y (by decide)
  unfold roundStore
  dsimp only
  generalize writePage V b s _ _ = page at hpage ⊢
  obtain ⟨g, t⟩ := page
  have hcached : (t.setMem g (memcpy (t.mem g) (x % archPageGran) buffer src
      (roundCount x left))).pageCache = t.pageCache := rfl
  unfold Store.cached?
  rw [hcached]
  by_cases hpo : pageOf y = pageOf x
  · rw [hpo, hpage.page, Option.map_some, setMem_self, memcpy]
    split_ifs with hin hin' hin'
    · rw [show y % archPageGran - x % archPageGran = y - x by omega]
    · omega
    · omega
    · -- a page that is written whole has no such byte
      have hpart : decide (x % archPageGran = 0 ∧ roundCount x left = archPageGran) = false :=
        decide_eq_false fun hw => hin' (by omega)
      cases hl : loadedBytes V b s (pageOf x) y with
      | some v => rw [hpage.bytes hpart y v hpo hl]
      | none =>
        unfold loadedBytes at hl
        rw [if_pos hpo, Option.or_some] at hl
        cases hl
  · have hout : ¬ (x ≤ y ∧ y < x + roundCount x left) := by
      unfold pageOf archPageGran at *
      omega
    rw [if_neg hout, loadedBytes, if_neg hpo, Option.or_none, Store.cached?, ← hpage.others _ hpo]
    cases hg : t.pageCache 0 (pageOf y) with
    | none => rfl
    | some g' =>
      obtain ⟨hne, -, hmem⟩ := hpage.of_ne hpo hg
      rw [Option.map_some, Option.map_some, setMem_of_ne t hne, hmem]

end

/-! ## The rounds of a write -/

/-- The arguments of a `vfs_write`. -/
structure Request where
  offset : ℕ
  buffer : ℕ → UInt8
  count : ℕ

/-- Where a round of the loop starts. -/
structure Round (β : Type) where
  done : ℕ
  backend : β
  store : Store

section

variable (V : Volume β) (a : Request) (q : Round β)

def Request.pos : ℕ := u64 (a.offset + q.done)

def Request.len : ℕ := roundCount (a.pos q) (a.count - q.done)

/-- The round copies a byte to the position `y`. -/
def Request.Copies (y : ℕ) : Prop := a.pos q ≤ y ∧ y < a.pos q + a.len q

/-- The write-through of the round. -/
def Request.write : ℤ × ℕ × β :=
  V.write q.backend (a.pos q) (fun k => a.buffer (q.done + k)) (a.len q)

def Request.next : Round β :=
  ⟨q.done + a.len q, (a.write V q).2.2,
    roundStore V q.backend q.store (a.pos q) a.buffer q.done (a.count - q.done)⟩

/-- The start of the round `i` of a call that starts at `q`, if there are so many. -/
def Request.round (i : ℕ) : Round β := (a.next V)^[i] q

theorem Request.round_succ (i : ℕ) : a.round V q (i + 1) = a.next V (a.round V q i) :=
  Function.iterate_succ_apply' _ _ _

/-- The write-through of the round `j` fails, and it is the first. -/
structure FailsAt (j : ℕ) : Prop where
  left : (a.round V q j).done < a.count
  before : ∀ i < j, (a.write V (a.round V q i)).1 = eok
  fails : (a.write V (a.round V q j)).1 ≠ eok

/-- After a call that fails in the round `j`, these bytes are as in the file, where they are inside it: those
of the round, those that were cached outside the file at first and have become part of it in a hole, and those
that were loaded on the way and not written. -/
structure RoundsRight (file : β → File) (j : ℕ) : Prop where
  failed : ∀ y, a.Copies (a.round V q j) y → y < (file (a.round V q (j + 1)).backend).size →
    a.buffer ((a.round V q j).done + (y - a.pos (a.round V q j))) =
      (file (a.round V q (j + 1)).backend).bytes y
  hole : ∀ y v, (∀ i ≤ j, ¬ a.Copies (a.round V q i) y) → (file q.backend).size ≤ y →
    y < (file (a.round V q (j + 1)).backend).size → q.store.cached? y = some v →
    v = (file (a.round V q (j + 1)).backend).bytes y
  loaded : ∀ y, (∀ i ≤ j, ¬ a.Copies (a.round V q i) y) →
    y < (file (a.round V q (j + 1)).backend).size → ∀ i ≤ j, (a.round V q i).store.cached? y = none →
    pageOf y = pageOf (a.pos (a.round V q i)) →
    prefill V (a.round V q i).backend (a.round V q i).store (pageOf y) (y % archPageGran) =
      (file (a.round V q (j + 1)).backend).bytes y

end

section

variable {V : Volume β} {a : Request} {q : Round β}

theorem writeLoop_fails {r : WriteResult β} {n : ℕ}
    (h : writeLoop V a.offset a.buffer a.count n q.done q.backend q.store = some r) (hr : r.status ≠ eok) :
    ∃ j, FailsAt V a q j ∧ r = ⟨(a.write V (a.round V q j)).1, none, (a.round V q (j + 1)).backend,
      (a.round V q (j + 1)).store⟩ := by
  induction n generalizing q with
  | zero => cases h
  | succ n ih =>
    by_cases hlt : q.done < a.count
    · rw [writeLoop_succ V a.buffer n q.backend q.store hlt] at h
      split_ifs at h with hst
      · cases h
        exact ⟨0, ⟨hlt, fun i hi => absurd hi (Nat.not_lt_zero i), hst⟩, rfl⟩
      · obtain ⟨j, hj, hres⟩ := ih (q := a.next V q) h
        refine ⟨j + 1, ⟨hj.left, fun i hi => ?_, hj.fails⟩, hres⟩
        cases i with
        | zero => exact not_not.mp hst
        | succ i => exact hj.before i (Nat.lt_of_succ_lt_succ hi)
    · rw [writeLoop, if_neg hlt] at h
      cases h
      exact absurd rfl hr

theorem round_framed (h : Framed V.toFrames q.store) (i : ℕ) :
    Framed V.toFrames (a.round V q i).store := by
  induction i with
  | zero => exact h
  | succ i ih =>
    rw [a.round_succ]
    exact roundStore_framed ih _ _ _ _

theorem round_kept (i : ℕ) : Kept V.toFrames q.store (a.round V q i).store := by
  induction i with
  | zero => exact Kept.refl V.toFrames q.store
  | succ i ih =>
    rw [a.round_succ]
    exact ih.trans (roundStore_kept _ _ _ _ _ _ _)

theorem next_cached (h : Framed V.toFrames q.store) {y : ℕ} (hy : ¬ a.Copies q y) :
    (a.next V q).store.cached? y = loadedBytes V q.backend q.store (pageOf (a.pos q)) y :=
  (roundStore_cached h _ _ _ _ _).trans (if_neg hy)

/-- A byte that no round copies is the one that was cached, or is loaded in one of the rounds. -/
theorem round_cached (h : Framed V.toFrames q.store) {y : ℕ} {v : UInt8} {i : ℕ}
    (hy : ∀ k < i, ¬ a.Copies (a.round V q k) y) :
    (a.round V q i).store.cached? y = some v ↔ q.store.cached? y = some v ∨
      ∃ k < i, (a.round V q k).store.cached? y = none ∧ pageOf y = pageOf (a.pos (a.round V q k)) ∧
        prefill V (a.round V q k).backend (a.round V q k).store (pageOf y) (y % archPageGran) = v := by
  induction i with
  | zero => exact ⟨Or.inl, fun hv => hv.resolve_right fun ⟨k, hk, _⟩ => absurd hk (Nat.not_lt_zero k)⟩
  | succ i ih =>
    have hold := ih fun k hk => hy k (Nat.lt_succ_of_lt hk)
    rw [a.round_succ, next_cached (round_framed h i) (hy i (Nat.lt_succ_self i)), loadedBytes,
      Option.or_eq_some_iff, hold]
    constructor
    · rintro ((hv | ⟨k, hk, hload⟩) | ⟨hnone, hpo⟩)
      · exact Or.inl hv
      · exact Or.inr ⟨k, Nat.lt_succ_of_lt hk, hload⟩
      · split_ifs at hpo with hpage
        rw [← hpage] at hpo
        exact Or.inr ⟨i, Nat.lt_succ_self i, hnone, hpage, Option.some.inj hpo⟩
    · rintro (hv | ⟨k, hk, hnone, hpage, hload⟩)
      · exact Or.inl (Or.inl hv)
      · rcases Nat.lt_or_eq_of_le (Nat.le_of_lt_succ hk) with hlt | rfl
        · exact Or.inl (Or.inr ⟨k, hlt, hnone, hpage, hload⟩)
        · exact Or.inr ⟨hnone, by rw [if_pos hpage, ← hpage, hload]⟩

variable {file : β → File} (hV : FileBacked V file)

include hV

theorem next_file : ∃ m ≤ a.len q, ((a.write V q).1 = eok → m = a.len q) ∧
    file (a.next V q).backend =
      (file q.backend).write (a.pos q) (fun k => a.buffer (q.done + k)) m := by
  by_cases hst : (a.write V q).1 = eok
  · exact ⟨a.len q, le_rfl, fun _ => rfl, hV.write _ _ _ _ hst⟩
  · obtain ⟨m, hm, hfile⟩ := hV.failed _ _ _ _ hst
    exact ⟨m, hm, fun hok => absurd hok hst, hfile⟩

theorem next_size : (file q.backend).size ≤ (file (a.next V q).backend).size := by
  obtain ⟨m, -, -, hfile⟩ := next_file hV (a := a) (q := q)
  rw [hfile, File.write]
  dsimp only
  split_ifs <;> omega

theorem next_bytes {y : ℕ} (hy : ¬ a.Copies q y) :
    (file (a.next V q).backend).bytes y = (file q.backend).bytes y := by
  obtain ⟨m, hm, -, hfile⟩ := next_file hV (a := a) (q := q)
  rw [hfile]
  exact if_neg fun hin => hy ⟨hin.1, by omega⟩

theorem next_copied {y : ℕ} (hst : (a.write V q).1 = eok) (hy : a.Copies q y) :
    y < (file (a.next V q).backend).size ∧
      (file (a.next V q).backend).bytes y = a.buffer (q.done + (y - a.pos q)) := by
  obtain ⟨m, -, hm, hfile⟩ := next_file hV (a := a) (q := q)
  obtain rfl := hm hst
  have hlt := hy.2
  rw [hfile]
  refine ⟨?_, (if_pos hy).trans (by rw [Nat.zero_add])⟩
  unfold File.write
  dsimp only
  split_ifs with hzero
  · have hle := hy.1
    omega
  · omega

theorem round_bytes {y i : ℕ} (hy : ∀ k < i, ¬ a.Copies (a.round V q k) y) :
    (file (a.round V q i).backend).bytes y = (file q.backend).bytes y := by
  induction i with
  | zero => rfl
  | succ i ih =>
    rw [a.round_succ, next_bytes hV (hy i (Nat.lt_succ_self i))]
    exact ih fun k hk => hy k (Nat.lt_succ_of_lt hk)

/-- What the rounds that succeed have copied is in the file and in the cache. -/
theorem round_copied (h : Framed V.toFrames q.store) {y i : ℕ}
    (hst : ∀ k < i, (a.write V (a.round V q k)).1 = eok) (hy : ∃ k < i, a.Copies (a.round V q k) y) :
    y < (file (a.round V q i).backend).size ∧
      (a.round V q i).store.cached? y = some ((file (a.round V q i).backend).bytes y) := by
  induction i with
  | zero =>
    obtain ⟨k, hk, -⟩ := hy
    exact absurd hk (Nat.not_lt_zero k)
  | succ i ih =>
    rw [a.round_succ]
    by_cases hi : a.Copies (a.round V q i) y
    · obtain ⟨hlt, hbyte⟩ := next_copied hV (hst i (Nat.lt_succ_self i)) hi
      rw [hbyte]
      exact ⟨hlt, (roundStore_cached (round_framed h i) _ _ _ _ _).trans (if_pos hi)⟩
    · obtain ⟨k, hk, hk'⟩ := hy
      have hki : k < i := by
        refine Nat.lt_of_le_of_ne (Nat.le_of_lt_succ hk) ?_
        rintro rfl
        exact hi hk'
      obtain ⟨hlt, hc⟩ := ih (fun k hk => hst k (Nat.lt_succ_of_lt hk)) ⟨k, hki, hk'⟩
      rw [next_bytes hV hi, next_cached (round_framed h i) hi, loadedBytes, hc, Option.some_or]
      exact ⟨Nat.lt_of_lt_of_le hlt (next_size hV), rfl⟩

/-- After the round that fails, the cached bytes inside the file are those of the file exactly if the three
kinds of bytes that a round can leave behind are. -/
theorem caches_round_iff (h : Caches V.toFrames (file q.backend) (file q.backend).byte? q.store) {j : ℕ}
    (hj : FailsAt V a q j) :
    Caches V.toFrames (file (a.round V q (j + 1)).backend) (file (a.round V q (j + 1)).backend).byte?
        (a.round V q (j + 1)).store ↔ RoundsRight V a q file j := by
  have hframed := round_framed (a := a) h.framed
  have hlast : ∀ y, a.Copies (a.round V q j) y → (a.round V q (j + 1)).store.cached? y =
      some (a.buffer ((a.round V q j).done + (y - a.pos (a.round V q j)))) := by
    intro y hy
    rw [a.round_succ]
    exact (roundStore_cached (hframed j) _ _ _ _ _).trans (if_pos hy)
  have hnot : ∀ y, (∀ i ≤ j, ¬ a.Copies (a.round V q i) y) → ∀ i < j + 1, ¬ a.Copies (a.round V q i) y :=
    fun y hy i hi => hy i (Nat.le_of_lt_succ hi)
  rw [caches_iff (hframed (j + 1))]
  constructor
  · intro hall
    refine ⟨fun y hy => hall y _ (hlast y hy), fun y v hy _ hlt hv => ?_, fun y hy hlt i hi hnone hpage => ?_⟩
    · exact hall y v ((round_cached h.framed (hnot y hy)).mpr (Or.inl hv)) hlt
    · refine hall y _ ((round_cached h.framed (hnot y hy)).mpr (Or.inr ?_)) hlt
      exact ⟨i, Nat.lt_succ_of_le hi, hnone, hpage, rfl⟩
  · intro hright y v hv hlt
    by_cases hy : a.Copies (a.round V q j) y
    · rw [hlast y hy] at hv
      rw [← Option.some.inj hv]
      exact hright.failed y hy hlt
    by_cases hbefore : ∃ i < j, a.Copies (a.round V q i) y
    · -- a round before has put the byte into the file and into the cache, where the last one leaves it
      obtain ⟨-, hc⟩ := round_copied hV h.framed hj.before hbefore
      rw [a.round_succ, next_cached (hframed j) hy, loadedBytes, hc, Option.some_or] at hv
      rw [a.round_succ, next_bytes hV hy]
      exact (Option.some.inj hv).symm
    have hnone : ∀ i ≤ j, ¬ a.Copies (a.round V q i) y := by
      intro i hi hcopy
      rcases Nat.lt_or_eq_of_le hi with hij | rfl
      · exact hbefore ⟨i, hij, hcopy⟩
      · exact hy hcopy
    rcases (round_cached h.framed (hnot y hnone)).mp hv with hold | ⟨i, hi, hmiss, hpage, rfl⟩
    · by_cases hsize : y < (file q.backend).size
      · rw [round_bytes hV (hnot y hnone)]
        exact (caches_iff h.framed).mp h y v hold hsize
      · exact hright.hole y v hnone (Nat.le_of_not_lt hsize) hlt hold
    · exact hright.loaded y hnone hlt i (Nat.le_of_lt_succ hi) hmiss hpage

end

/-! ## Calls that fail -/

/-- A file whose backend fails to read or to write with the given status, unless that is `EOK`. -/
def failingVolume (F : Frames) (readStatus writeStatus : ℤ) : Volume File where
  toFrames := F
  vnode f :=
    { read := fun offset count => if readStatus = eok then f.read offset count else (readStatus, [])
      cached := true
      length_read := fun offset count => by
        split_ifs
        · exact f.length_read offset count
        · exact Nat.zero_le count }
  write f offset buffer count :=
    if writeStatus = eok then (eok, count, f.write offset buffer count) else (writeStatus, 0, f)

theorem failingVolume_backed (F : Frames) (readStatus writeStatus : ℤ) :
    FileBacked (failingVolume F readStatus writeStatus) id := by
  refine ⟨fun _ => rfl, fun f offset count hst => ?_, fun f offset buffer count hst => ?_,
    fun f offset buffer count hst => ?_⟩
  · unfold failingVolume at hst ⊢
    dsimp only at hst ⊢
    split_ifs at hst ⊢ with hok
    · rfl
    · exact absurd hst hok
  · unfold failingVolume at hst ⊢
    dsimp only at hst ⊢
    split_ifs at hst ⊢ with hok
    · rfl
    · exact absurd hst hok
  · unfold failingVolume at hst ⊢
    dsimp only at hst ⊢
    split_ifs at hst ⊢ with hok
    · exact absurd rfl hst
    · exact ⟨0, Nat.zero_le count, (write_zero f offset buffer).symm⟩

end LykOS.Vfs
