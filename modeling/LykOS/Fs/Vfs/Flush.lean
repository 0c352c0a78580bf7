import LykOS.Fs.Vfs.Close

/-!
# What closing does to the file

Runs of `vfs_read` and `vfs_write` on a cached vnode with a file behind it, and `vfs_close` at the
end. Since every write goes to the file at once, the file is up to date before the close.
`vfs_close` then writes each cached page to it as a whole, so that the file grows to the end of its
last cached page, and from the address of the frame itself, where the bytes of the page are not: the
window to them is in the higher half. `close_keeps_file_iff` says when this leaves the file as it
is.
-/

namespace LykOS.Vfs

open RedBlack Rbtree Run

/-- The file after a write of 64-bit offsets, where byte `k` goes to position `offset + k`. -/
def File.write64 (f : File) (offset : ℕ) (buffer : ℕ → UInt8) (count : ℕ) : File :=
  (f.write offset buffer (min count (2 ^ 64 - offset))).write 0 (fun k => buffer (2 ^ 64 - offset + k))
    (count - (2 ^ 64 - offset))

/-- The file after the writes among the calls. -/
def applyWrites (f : File) : List CacheOp → File
  | [] => f
  | .write offset buffer count _ :: ops => applyWrites (f.write64 offset buffer count) ops
  | .read .. :: ops => applyWrites f ops

/-- A cached vnode: its file, and the store. -/
structure FileWorld where
  file : File
  store : Store

def fileStep (F : Frames) (w : FileWorld) : CacheOp → Option FileWorld
  | .write offset buffer count _ => do
    let r ← vfsWrite (fileVolume F true) w.file w.store offset buffer count
    return ⟨r.backend, r.store⟩
  | .read offset buffer count _ => do
    let r ← vfsRead ((fileVolume F true).machine w.file) w.store 0 offset buffer count
    return { w with store := r.store }

def SameFile (f g : File) : Prop := f.size = g.size ∧ ∀ x < f.size, f.bytes x = g.bytes x

/-- The tree has the pages of the cache. -/
structure PageTree.Stores (c : PageTree) (T : Shape ℕ) (pages : ℕ → Option ℕ) : Prop where
  isTree : IsTree c.tree T
  pages : ∀ po g, pages po = some g ↔ ∃ vp ∈ T.items, (c.tree.nodes vp).key = po ∧ c.pageAddr vp = g

/-- Each cached page lies inside the file, and the bytes at the address of its frame are those of the
file. -/
def FlushSafe (low : ℕ → ℕ → UInt8) (pages : ℕ → Option ℕ) (f : File) : Prop :=
  ∀ po g, pages po = some g →
    po + archPageGran ≤ f.size ∧ ∀ k < archPageGran, low g k = f.bytes (po + k)

/-! ## The calls -/

/-- The pages of the cache are at multiples of the page size. -/
def PagesAligned (s : Store) : Prop := ∀ po g, s.pageCache 0 po = some g → po % archPageGran = 0

section

variable {F : Frames} {f : File} {c : ℕ → Option UInt8} {s : Store}

theorem write64_zero (f : File) (offset : ℕ) (buffer : ℕ → UInt8) : f.write64 offset buffer 0 = f := by
  unfold File.write64
  rw [Nat.zero_min, Nat.zero_sub, write_zero, write_zero]

theorem write64_round {offset done n : ℕ} (buffer : ℕ → UInt8) (hoff : offset < 2 ^ 64)
    (hdone : done + n < 2 ^ 64) (hpos : 0 < n)
    (hn : u64 (offset + done) % archPageGran + n ≤ archPageGran) :
    (f.write64 offset buffer done).write (u64 (offset + done)) (fun k => buffer (done + k)) n =
      f.write64 offset buffer (done + n) := by
  unfold File.write64
  by_cases hlt : offset + done < 2 ^ 64
  · have hend : offset + done + n ≤ 2 ^ 64 := by
      unfold u64 archPageGran at hn
      omega
    have hfirst : ∀ m, m ≤ done + n → min m (2 ^ 64 - offset) = m ∧ m - (2 ^ 64 - offset) = 0 := by
      omega
    obtain ⟨hmin, hsub⟩ := hfirst done (by omega)
    obtain ⟨hmin', hsub'⟩ := hfirst (done + n) le_rfl
    rw [u64_of_lt hlt, hmin, hsub, hmin', hsub', write_zero, write_zero, write_write _ _ _ hpos]
  · -- the first part is complete
    have hx : u64 (offset + done) = 0 + (done - (2 ^ 64 - offset)) := by
      unfold u64
      omega
    have hbuffer : (fun k => buffer (done + k)) =
        fun k => (fun k => buffer (2 ^ 64 - offset + k)) (done - (2 ^ 64 - offset) + k) := by
      funext k
      exact congrArg buffer (by omega)
    rw [hx, Nat.min_eq_right (by omega), Nat.min_eq_right (by omega), hbuffer, write_write _ _ _ hpos]
    congr 1
    omega

theorem HasPage.aligned {po g : ℕ} {whole : Bool} {t : Store} (hpage : HasPage F c s po whole g t)
    (h : PagesAligned s) (hpo : po % archPageGran = 0) : PagesAligned t := by
  intro po' g' hpo'
  by_cases heq : po' = po
  · rw [heq]
    exact hpo
  · exact h po' g' ((hpage.others po' heq).symm.trans hpo')

theorem fileStep_next {w : FileWorld} (h : Caches F w.file c w.store) (hal : PagesAligned w.store)
    (op : CacheOp) :
    ∃ w' c', fileStep F w op = some w' ∧ Caches F w'.file c' w'.store ∧ PagesAligned w'.store ∧
      w'.file = applyWrites w.file [op] := by
  cases op with
  | write offset buffer count hop =>
    let P : ℕ → File → (ℕ → Option UInt8) → Store → Prop := fun done f _ s =>
      f = w.file.write64 offset buffer done ∧ PagesAligned s
    have hround : ∀ done f c s t g whole, done < count → Caches F f c s → P done f c s →
        HasPage F c s (pageOf (u64 (offset + done))) whole g t →
        let x := u64 (offset + done)
        let n := roundCount x (count - done)
        let f' := f.write x (fun k => buffer (done + k)) n
        P (done + n) f' (nextBytes c t f' x buffer done n)
          (t.setMem g (memcpy (t.mem g) (x % archPageGran) buffer done n)) := by
      rintro done f c s t g whole hlt - ⟨rfl, hs⟩ hpage x n f'
      have hle := roundCount_le x (count - done)
      exact ⟨write64_round buffer hop.1 (by omega) (roundCount_pos x (by omega)) (roundCount_page _ _),
        hpage.aligned hs (pageOf_mod x)⟩
    obtain ⟨r, c', hr, -, -, hcaches, hfile, hal'⟩ := writeLoop_induction hround (count + 1) 0 w.file c
      w.store h ⟨(write64_zero _ _ _).symm, hal⟩ (Nat.zero_le _) (Nat.lt_succ_self _)
    have hwrite : vfsWrite (fileVolume F true) w.file w.store offset buffer count = some r := hr
    refine ⟨⟨r.backend, r.store⟩, c', ?_, hcaches, hal', hfile⟩
    simp only [fileStep, hwrite, Option.bind_eq_bind, Option.bind_some]
    rfl
  | read offset buffer count hop =>
    obtain ⟨r, hr, -, -, hcaches, -⟩ := h.vfsRead offset buffer count
    refine ⟨{ w with store := r.store }, c, ?_, hcaches, fun po g hpo => ?_, rfl⟩
    · simp only [fileStep, hr, Option.bind_eq_bind, Option.bind_some]
      rfl
    · by_contra hne
      have hsame := vfsRead_extends hr 0 po fun _ => hne
      exact hne (hal po g (hsame.symm.trans hpo))

theorem fileRun_next : ∀ (ops : List CacheOp) {w : FileWorld} {c : ℕ → Option UInt8},
    Caches F w.file c w.store → PagesAligned w.store →
    ∃ w', run (fileStep F) w ops = some w' ∧ PagesAligned w'.store ∧ w'.file = applyWrites w.file ops := by
  intro ops
  induction ops with
  | nil => exact fun _ hal => ⟨_, rfl, hal, rfl⟩
  | cons op ops ih =>
    intro w c h hal
    obtain ⟨w₁, c₁, hstep, hcaches, hal₁, hfile⟩ := fileStep_next h hal op
    obtain ⟨w', hrun, hal', hfile'⟩ := ih hcaches hal₁
    refine ⟨w', ?_, hal', ?_⟩
    · rw [run_cons, hstep]
      exact hrun
    · rw [hfile', hfile]
      cases op <;> rfl

end

/-! ## The close -/

section

variable (F : Frames) (low : ℕ → ℕ → UInt8) (c : PageTree)

theorem size_flush_le (vps : List ℕ) (f : File) (n : ℕ) :
    (vps.foldl (c.flush (fileVolume F true) low) f).size ≤ n ↔
      f.size ≤ n ∧ ∀ vp ∈ vps, (c.tree.nodes vp).key + archPageGran ≤ n := by
  induction vps generalizing f with
  | nil => simp
  | cons vp vps ih =>
    have hsize : (c.flush (fileVolume F true) low f vp).size =
        max f.size ((c.tree.nodes vp).key + archPageGran) := rfl
    rw [List.foldl_cons, ih, hsize, Nat.max_le, List.forall_mem_cons, and_assoc]

theorem bytes_flush_of_not_mem (vps : List ℕ) (f : File) {x : ℕ}
    (h : ∀ vp ∈ vps, ¬ ((c.tree.nodes vp).key ≤ x ∧ x < (c.tree.nodes vp).key + archPageGran)) :
    (vps.foldl (c.flush (fileVolume F true) low) f).bytes x = f.bytes x := by
  induction vps generalizing f with
  | nil => rfl
  | cons vp vps ih =>
    rw [List.foldl_cons, ih _ fun a ha => h a (List.mem_cons_of_mem vp ha)]
    exact if_neg (h vp List.mem_cons_self)

theorem bytes_flush (vps : List ℕ) (f : File) {vp k : ℕ} (hvp : vp ∈ vps) (hk : k < archPageGran)
    (hal : ∀ a ∈ vps, (c.tree.nodes a).key % archPageGran = 0)
    (hord : vps.Pairwise fun a b => (c.tree.nodes a).key < (c.tree.nodes b).key) :
    (vps.foldl (c.flush (fileVolume F true) low) f).bytes ((c.tree.nodes vp).key + k) =
      low (c.pageAddr vp) k := by
  induction vps generalizing f with
  | nil => cases hvp
  | cons a vps ih =>
    obtain ⟨hlt, hord⟩ := List.pairwise_cons.mp hord
    rw [List.foldl_cons]
    rcases List.mem_cons.mp hvp with rfl | hvp
    · rw [bytes_flush_of_not_mem]
      · have hin : (c.tree.nodes vp).key ≤ (c.tree.nodes vp).key + k ∧
            (c.tree.nodes vp).key + k < (c.tree.nodes vp).key + archPageGran := by omega
        refine (if_pos hin).trans (congrArg (low (c.pageAddr vp)) ?_)
        omega
      · -- the other pages are further on
        intro b hb hmem
        have hb' := hlt b hb
        have h1 := hal vp List.mem_cons_self
        have h2 := hal b (List.mem_cons_of_mem vp hb)
        unfold archPageGran at *
        omega
    · exact ih _ hvp (fun b hb => hal b (List.mem_cons_of_mem a hb)) hord

theorem sameFile_flush_iff {T : Shape ℕ} {pages : ℕ → Option ℕ} (h : c.Stores T pages)
    (hal : ∀ po g, pages po = some g → po % archPageGran = 0) (f : File) :
    SameFile (T.items.foldl (c.flush (fileVolume F true) low) f) f ↔ FlushSafe low pages f := by
  have hkey : ∀ vp ∈ T.items, pages (c.tree.nodes vp).key = some (c.pageAddr vp) := fun vp hvp =>
    (h.pages _ _).mpr ⟨vp, hvp, rfl, rfl⟩
  have hal' : ∀ vp ∈ T.items, (c.tree.nodes vp).key % archPageGran = 0 := fun vp hvp =>
    hal _ _ (hkey vp hvp)
  have hbytes : ∀ vp ∈ T.items, ∀ k < archPageGran,
      (T.items.foldl (c.flush (fileVolume F true) low) f).bytes ((c.tree.nodes vp).key + k) =
        low (c.pageAddr vp) k := fun vp hvp k hk =>
      bytes_flush F low c T.items f hvp hk hal' h.isTree.ordered
  constructor
  · rintro ⟨hsize, hsame⟩ po g hpo
    obtain ⟨vp, hvp, rfl, rfl⟩ := (h.pages po g).mp hpo
    have hend := ((size_flush_le F low c T.items f f.size).mp (Nat.le_of_eq hsize)).2 vp hvp
    refine ⟨hend, fun k hk => ?_⟩
    rw [← hbytes vp hvp k hk]
    exact hsame _ (by omega)
  · intro hsafe
    have hle := (size_flush_le F low c T.items f f.size).mpr
      ⟨le_rfl, fun vp hvp => (hsafe _ _ (hkey vp hvp)).1⟩
    have hge := ((size_flush_le F low c T.items f _).mp le_rfl).1
    refine ⟨Nat.le_antisymm hle hge, fun x _ => ?_⟩
    by_cases hx : ∃ vp ∈ T.items, (c.tree.nodes vp).key ≤ x ∧ x < (c.tree.nodes vp).key + archPageGran
    · obtain ⟨vp, hvp, hlo, hhi⟩ := hx
      obtain ⟨k, rfl⟩ := Nat.exists_eq_add_of_le hlo
      rw [hbytes vp hvp k (by omega)]
      exact (hsafe _ _ (hkey vp hvp)).2 k (by omega)
    · exact bytes_flush_of_not_mem F low c T.items f fun vp hvp hin => hx ⟨vp, hvp, hin⟩

end

/-- Every run of calls returns, and so does the close. The file is then what the writes made of it
just if each cached page lies inside the file and its frame's address shows the bytes of the file. -/
theorem close_keeps_file_iff {F : Frames} {f : File} {c : ℕ → Option UInt8} {s : Store} (h : Caches F f c s)
    (hal : PagesAligned s) (ops : List CacheOp) :
    ∃ w, run (fileStep F) ⟨f, s⟩ ops = some w ∧
      ∀ (low : ℕ → ℕ → UInt8) (junk : ℕ → RbtreeNode × ℕ) (n : ℕ) (p : PageTree) (T : Shape ℕ),
        p.Stores T (w.store.pageCache 0) → T.items.length < n →
        ∃ r, PageTree.vfsClose (fileVolume F true) low junk n none p w.file = some r ∧
          (SameFile r.backend (applyWrites f ops) ↔
            FlushSafe low (w.store.pageCache 0) (applyWrites f ops)) := by
  obtain ⟨w, hrun, hal', hfile⟩ := fileRun_next (w := ⟨f, s⟩) ops h hal
  refine ⟨w, hrun, fun low junk n p T hstores hn => ?_⟩
  obtain ⟨r, hclose, -, hbackend⟩ := PageTree.vfsClose_spec hstores.isTree hn none w.file
  refine ⟨r, hclose, ?_⟩
  rw [(hbackend rfl).2, ← hfile]
  exact sameFile_flush_iff F low p hstores hal' w.file

def onePage : PageTree := ⟨⟨fun _ => withKey 0, some 0⟩, fun _ => 0⟩

theorem onePage_isTree : IsTree onePage.tree (.node false .nil 0 .nil) :=
  ⟨⟨rfl, ⟨⟨rfl, rfl, rfl, rfl⟩, trivial, trivial⟩, List.nodup_cons.mpr ⟨List.not_mem_nil, List.nodup_nil⟩⟩,
    List.pairwise_singleton _ _, rfl, 1, .black .nil .nil⟩

def readFirst : CacheOp := .read 0 (fun _ => 0) 1 (by decide)

/-- A file of one whole page of `7`, in a memory that shows `7` at the address of the frame. -/
theorem close_keeps_whole_page :
    ∃ w r, run (fileStep sampleFrames) ⟨⟨4096, fun _ => 7⟩, sampleStore⟩ [readFirst] = some w ∧
      PageTree.vfsClose (fileVolume sampleFrames true) (fun _ _ => 7) (fun _ => (withKey 0, 0)) 2 none onePage
        w.file = some r ∧ SameFile r.backend ⟨4096, fun _ => 7⟩ := by
  obtain ⟨w, hrun, hclose⟩ := close_keeps_file_iff (F := sampleFrames)
    (caches_empty sampleFrames ⟨4096, fun _ => 7⟩ (s := sampleStore) fun _ => rfl)
    (fun _ _ h => (nomatch h)) [readFirst]
  obtain ⟨w', hrun', hzero, hnone⟩ : ∃ w, run (fileStep sampleFrames) ⟨⟨4096, fun _ => 7⟩, sampleStore⟩
      [readFirst] = some w ∧ w.store.pageCache 0 0 = some 0 ∧
        ∀ po, po ≠ 0 → w.store.pageCache 0 po = none :=
    ⟨_, rfl, rfl, fun po hpo => Function.update_of_ne hpo _ _⟩
  obtain rfl : w' = w := Option.some.inj (hrun'.symm.trans hrun)
  have hpages : ∀ po g, w'.store.pageCache 0 po = some g ↔ 0 = po ∧ 0 = g := by
    intro po g
    by_cases hpo : 0 = po
    · subst hpo
      rw [hzero, Option.some.injEq, eq_self, true_and]
    · rw [hnone po (Ne.symm hpo)]
      exact ⟨fun h => (nomatch h), fun h => absurd h.1 hpo⟩
  have hstores : onePage.Stores (.node false .nil 0 .nil) (w'.store.pageCache 0) := by
    refine ⟨onePage_isTree, fun po g => ?_⟩
    rw [hpages]
    exact ⟨fun h => ⟨0, List.mem_cons_self, h⟩, fun ⟨_, _, h⟩ => h⟩
  obtain ⟨r, hr, hiff⟩ := hclose (fun _ _ => 7) (fun _ => (withKey 0, 0)) 2 onePage _ hstores (by decide)
  refine ⟨w', r, hrun, hr, hiff.mpr fun po g hpo => ?_⟩
  obtain ⟨rfl, rfl⟩ := (hpages po g).mp hpo
  exact ⟨by decide, fun _ _ => rfl⟩

/-- One byte of a file of two is read. The close makes the file a page long, with the bytes that
memory has at the address of the frame. -/
theorem close_overwrites_file :
    ∃ w r, run (fileStep sampleFrames) ⟨sampleFile, sampleStore⟩ [readFirst] = some w ∧
      PageTree.vfsClose (fileVolume sampleFrames true) (fun _ _ => 0) (fun _ => (withKey 0, 0)) 2 none onePage
        w.file = some r ∧ w.store.pageCache 0 0 = some 0 ∧ w.file.size = 2 ∧ w.file.bytes 0 = 5 ∧
      r.backend.size = 4096 ∧ r.backend.bytes 0 = 0 :=
  ⟨_, _, rfl, rfl, rfl, rfl, rfl, rfl, rfl⟩

end LykOS.Vfs
