import LykOS.Fs.Vfs.Read

/-!
# What `vfs_write` stores

One vnode, with a file as its backend. `Caches c` says that the pages of the cache hold the bytes `c` where
`c` has one, that the other pages show the file, and that every page is in a frame of its own. A round of
`vfs_write` keeps this with the bytes of `nextBytes` (`writeRound_spec`).
-/

namespace LykOS.Vfs

/-- The pages of the cache hold the bytes `c`, and outside it `c` is the file `f`. The frames of the
cache are not free, and each has one page. -/
structure Caches (F : Frames) (f : File) (c : ℕ → Option UInt8) (s : Store) : Prop where
  file : ∀ x, s.pageCache 0 (pageOf x) = none → c x = f.byte? x
  cache : ∀ x g v, s.pageCache 0 (pageOf x) = some g → c x = some v → s.mem g (x % archPageGran) = v
  used : ∀ po g n, s.pageCache 0 po = some g → s.taken ≤ n → F.frames n ≠ g
  inj : ∀ po po' g, s.pageCache 0 po = some g → s.pageCache 0 po' = some g → po = po'

/-- The frames of the cache are not free, and each has one page. -/
structure Framed (F : Frames) (s : Store) : Prop where
  used : ∀ po g n, s.pageCache 0 po = some g → s.taken ≤ n → F.frames n ≠ g
  inj : ∀ po po' g, s.pageCache 0 po = some g → s.pageCache 0 po' = some g → po = po'

/-- `c` after `n` bytes of the buffer, from `src` on, are written at `start` in a page of `s`, which makes
the file `f`. -/
def nextBytes (c : ℕ → Option UInt8) (s : Store) (f : File) (start : ℕ) (buffer : ℕ → UInt8)
    (src n : ℕ) : ℕ → Option UInt8 := fun x =>
  if start ≤ x ∧ x < start + n then some (buffer (src + (x - start)))
  else if s.pageCache 0 (pageOf x) = none then f.byte? x else c x

section

variable {F : Frames} {f : File} {c : ℕ → Option UInt8} {s : Store}

theorem byte?_write {offset n x : ℕ} {buffer : ℕ → UInt8} :
    (f.write offset buffer n).byte? x =
      if offset ≤ x ∧ x < offset + n then some (buffer (x - offset))
      else if x < (f.write offset buffer n).size then some (f.bytes x) else none := by
  unfold File.write File.byte? memcpy
  dsimp only
  split_ifs with h1 h2 h3 <;> first | rfl | (rw [Nat.zero_add]) | omega

/-! ## One round -/

/-- `g` is the frame of the page `po` in `t`, which is `s` with this page. If only a part of it will be
written, it has its bytes. -/
structure HasPage (F : Frames) (c : ℕ → Option UInt8) (s : Store) (po : ℕ) (whole : Bool) (g : ℕ)
    (t : Store) : Prop where
  page : t.pageCache 0 po = some g
  others : ∀ po', po' ≠ po → t.pageCache 0 po' = s.pageCache 0 po'
  mem : ∀ g', g' ≠ g → t.mem g' = s.mem g'
  bytes : whole = false → ∀ x v, pageOf x = po → c x = some v → t.mem g (x % archPageGran) = v
  used : ∀ po' g' n, t.pageCache 0 po' = some g' → t.taken ≤ n → F.frames n ≠ g'
  inj : ∀ po', t.pageCache 0 po' = some g → po' = po

theorem Caches.framed (h : Caches F f c s) : Framed F s := ⟨h.used, h.inj⟩

theorem hasPage_new (h : Framed F s) {po : ℕ} {whole : Bool} (hnone : s.pageCache 0 po = none)
    (bytes : ℕ → UInt8)
    (hbytes : whole = false → ∀ x v, pageOf x = po → c x = some v → bytes (x % archPageGran) = v) :
    HasPage F c s po whole (F.frames s.taken)
      ((s.alloc.setMem (F.frames s.taken) bytes).addPage 0 po (F.frames s.taken)) := by
  have hnew : ∀ po', s.pageCache 0 po' ≠ some (F.frames s.taken) := fun po' hpo' =>
    h.used po' _ _ hpo' le_rfl rfl
  have hnone' : (s.alloc.setMem (F.frames s.taken) bytes).pageCache 0 po = none := hnone
  have hcache : ∀ po', ((s.alloc.setMem (F.frames s.taken) bytes).addPage 0 po
      (F.frames s.taken)).pageCache 0 po' =
        if po' = po then some (F.frames s.taken) else s.pageCache 0 po' :=
    addPage_pageCache_apply hnone'
  refine ⟨?_, fun po' hpo' => ?_, fun g' hg' => ?_, fun hpart x v hx hv => ?_, ?_, ?_⟩
  · rw [hcache, if_pos rfl]
  · rw [hcache, if_neg hpo']
  · rw [addPage_mem]
    exact setMem_of_ne s.alloc hg' bytes
  · rw [addPage_mem]
    exact (congrFun (setMem_self s.alloc _ bytes) _).trans (hbytes hpart x v hx hv)
  · intro po' g' n hpo' hn
    rw [hcache] at hpo'
    rw [addPage_taken] at hn
    split_ifs at hpo'
    · cases hpo'
      exact fun heq => absurd (F.injective heq) (Nat.ne_of_gt hn)
    · exact h.used po' g' n hpo' (Nat.le_of_succ_le hn)
  · intro po' hpo'
    rw [hcache] at hpo'
    split_ifs at hpo' with heq
    · exact heq
    · exact absurd hpo' (hnew po')

theorem writePage_spec (h : Caches F f c s) (po : ℕ) (whole : Bool) :
    HasPage F c s po whole (writePage (fileVolume F true) f s po whole).1
      (writePage (fileVolume F true) f s po whole).2 := by
  unfold writePage
  cases hc : s.pageCache 0 po with
  | some g =>
    refine ⟨hc, fun _ _ => rfl, fun _ _ => rfl, fun _ x v hx => ?_, h.used, fun po' hpo' => ?_⟩
    · exact h.cache x g v (hx ▸ hc)
    · exact h.inj po' po g hpo' hc
  | none =>
    refine hasPage_new h.framed hc _ fun hpart x v hx hv => ?_
    rw [hpart, if_neg Bool.false_ne_true]
    -- outside the cache the bytes are those of the file
    have hxe : po + x % archPageGran = x := hx ▸ pageOf_add_mod x
    have hfile : f.byte? x = some v := (h.file x (hx ▸ hc)).symm.trans hv
    refine (fill_read f (Nat.mod_lt x (by decide))).trans ?_
    rw [hxe, hfile]
    rfl

section

variable {po g : ℕ} {whole : Bool} {t : Store}

theorem HasPage.of_ne (hpage : HasPage F c s po whole g t) {po' g' : ℕ} (hne : po' ≠ po)
    (h : t.pageCache 0 po' = some g') : g' ≠ g ∧ s.pageCache 0 po' = some g' ∧ t.mem g' = s.mem g' := by
  have hg : g' ≠ g := fun heq => hne (hpage.inj po' (heq ▸ h))
  exact ⟨hg, (hpage.others po' hne).symm.trans h, hpage.mem g' hg⟩

theorem HasPage.frames_inj (hpage : HasPage F c s po whole g t) (h : Framed F s) (po₁ po₂ g' : ℕ)
    (h1 : t.pageCache 0 po₁ = some g') (h2 : t.pageCache 0 po₂ = some g') : po₁ = po₂ := by
  by_cases hg : g' = g
  · rw [hpage.inj po₁ (hg ▸ h1), hpage.inj po₂ (hg ▸ h2)]
  · have hne : ∀ p, t.pageCache 0 p = some g' → p ≠ po := by
      rintro p hp rfl
      exact hg (Option.some.inj (hp.symm.trans hpage.page))
    exact h.inj po₁ po₂ g' (hpage.of_ne (hne po₁ h1) h1).2.1 (hpage.of_ne (hne po₂ h2) h2).2.1

end

theorem writeRound_spec (h : Caches F f c s) {po off n g : ℕ} {whole : Bool} {t : Store}
    (buffer : ℕ → UInt8) (src : ℕ) (hpo : po % archPageGran = 0) (hn : off + n ≤ archPageGran)
    (hwhole : whole = true → off = 0 ∧ n = archPageGran) (hpage : HasPage F c s po whole g t) :
    let f' := f.write (po + off) (fun k => buffer (src + k)) n
    Caches F f' (nextBytes c t f' (po + off) buffer src n)
      (t.setMem g (memcpy (t.mem g) off buffer src n)) := by
  intro f'
  have hwindow : ∀ x, po + off ≤ x ∧ x < po + off + n → pageOf x = po := by
    intro x hx
    have hxe := pageOf_add hpo (show x - po < archPageGran by omega)
    rwa [Nat.add_sub_cancel' (by omega)] at hxe
  refine ⟨fun x hx => ?_, fun x g' v hx hv => ?_, hpage.used, hpage.frames_inj h.framed⟩
  · have hx : t.pageCache 0 (pageOf x) = none := hx
    have hout : ¬ (po + off ≤ x ∧ x < po + off + n) := by
      intro hin
      rw [hwindow x hin, hpage.page] at hx
      cases hx
    unfold nextBytes
    rw [if_neg hout, if_pos hx]
  · have hx : t.pageCache 0 (pageOf x) = some g' := hx
    have hsome : t.pageCache 0 (pageOf x) ≠ none := by rw [hx]; exact Option.some_ne_none g'
    unfold nextBytes at hv
    by_cases hxpo : pageOf x = po
    · have hxe : po + x % archPageGran = x := hxpo ▸ pageOf_add_mod x
      rw [hxpo, hpage.page] at hx
      cases hx
      rw [setMem_self]
      unfold memcpy
      split_ifs at hv with hin
      · rw [if_pos (by omega), show x % archPageGran - off = x - (po + off) by omega]
        exact Option.some.inj hv
      · have hpart : whole = false := by
          refine Bool.eq_false_iff.mpr fun htrue => hin ?_
          obtain ⟨rfl, rfl⟩ := hwhole htrue
          have hmod : x % archPageGran < archPageGran := Nat.mod_lt x (by decide)
          omega
        rw [if_neg (by omega)]
        exact hpage.bytes hpart x v hxpo hv
    · obtain ⟨hg, hold, hmem⟩ := hpage.of_ne hxpo hx
      rw [if_neg fun hin => hxpo (hwindow x hin), if_neg hsome] at hv
      rw [setMem_of_ne t hg, hmem]
      exact h.cache x g' v hold hv

/-! ## The loop -/

/-- The number of bytes that the round of `vfs_write` at position `x` copies, of `left` bytes. -/
def roundCount (x left : ℕ) : ℕ := min (archPageGran - x % archPageGran) left

theorem roundCount_le (x left : ℕ) : roundCount x left ≤ left := Nat.min_le_right _ _

theorem roundCount_page (x left : ℕ) : x % archPageGran + roundCount x left ≤ archPageGran := by
  have hmod : x % archPageGran < archPageGran := Nat.mod_lt x (by decide)
  unfold roundCount
  omega

theorem roundCount_pos {left : ℕ} (x : ℕ) (h : 0 < left) : 0 < roundCount x left := by
  have hmod : x % archPageGran < archPageGran := Nat.mod_lt x (by decide)
  unfold roundCount
  omega

/-- What every round keeps, the loop keeps; a round starts from a store with the page of its position. -/
theorem writeLoop_induction {offset count : ℕ} {buffer : ℕ → UInt8}
    {P : ℕ → File → (ℕ → Option UInt8) → Store → Prop}
    (hround : ∀ done f c s t g whole, done < count → Caches F f c s → P done f c s →
      HasPage F c s (pageOf (u64 (offset + done))) whole g t →
      let x := u64 (offset + done)
      let n := roundCount x (count - done)
      let f' := f.write x (fun k => buffer (done + k)) n
      P (done + n) f' (nextBytes c t f' x buffer done n)
        (t.setMem g (memcpy (t.mem g) (x % archPageGran) buffer done n))) :
    ∀ (n done : ℕ) (f : File) (c : ℕ → Option UInt8) (s : Store), Caches F f c s → P done f c s →
      done ≤ count → count - done < n →
      ∃ r c', writeLoop (fileVolume F true) offset buffer count n done f s = some r ∧
        r.status = eok ∧ r.out = some count ∧ Caches F r.backend c' r.store ∧
        P count r.backend c' r.store := by
  intro n
  induction n with
  | zero => intro done _ _ _ _ _ _ hn; omega
  | succ n ih =>
    intro done f c s h hP hle hn
    unfold writeLoop
    by_cases hlt : done < count
    · let x := u64 (offset + done)
      let m := roundCount x (count - done)
      have hpos : 0 < m := roundCount_pos x (by omega)
      have hm : m ≤ count - done := roundCount_le x (count - done)
      have hpage := writePage_spec h (pageOf x) (decide (x % archPageGran = 0 ∧ m = archPageGran))
      have hnext := writeRound_spec h buffer done (pageOf_mod x) (roundCount_page _ _)
        (fun hw => of_decide_eq_true hw) hpage
      dsimp only at hnext
      rw [pageOf_add_mod] at hnext
      obtain ⟨r, c', hr, hrest⟩ := ih (done + m) _ _ _ hnext
        (hround done f c s _ _ _ hlt h hP hpage) (by omega) (by omega)
      refine ⟨r, c', ?_, hrest⟩
      rw [if_pos hlt]
      exact hr
    · obtain rfl : done = count := by omega
      exact ⟨_, c, if_neg hlt, rfl, rfl, h, hP⟩

/-! ## Reads -/

theorem Caches.holds (h : Caches F f c s) :
    Holds ((fileVolume F true).machine f) 0 f true c (fun _ => True) s := by
  refine ⟨rfl, fun x hx => h.file x (hx rfl), fun x g _ hx => ?_, h.used, fun _ _ _ => trivial⟩
  cases hc : c x with
  | none => exact Or.inr ⟨hc, trivial⟩
  | some v => exact Or.inl (by rw [hc, h.cache x g v hx hc])

theorem Caches.hasPage (h : Caches F f c s) {po g : ℕ} {t : Store}
    (hpage : HasPage F c s po false g t) : Caches F f c t := by
  refine ⟨fun x hx => ?_, fun x g' v hx hv => ?_, hpage.used, hpage.frames_inj h.framed⟩
  · have hne : pageOf x ≠ po := by
      intro heq
      rw [heq, hpage.page] at hx
      cases hx
    exact h.file x ((hpage.others _ hne).symm.trans hx)
  · by_cases hxpo : pageOf x = po
    · rw [hxpo, hpage.page] at hx
      cases hx
      exact hpage.bytes rfl x v hxpo hv
    · obtain ⟨-, hold, hmem⟩ := hpage.of_ne hxpo hx
      rw [hmem]
      exact h.cache x g' v hold hv

theorem cachePage_file (s : Store) (po : ℕ) :
    cachePage ((fileVolume F true).machine f) s 0 po =
      (writePage (fileVolume F true) f s po false).map .ok id := by
  unfold cachePage writePage
  cases s.pageCache 0 po with
  | some g => rfl
  | none => rfl

theorem readLoop_out {offset count : ℕ} : ∀ (n done : ℕ) (buffer : ℕ → UInt8) (s : Store)
    {r : ReadResult}, done ≤ count →
      readLoop ((fileVolume F true).machine f) 0 offset count n done buffer s = some r →
      r.status = eok ∧ r.out = some count := by
  intro n
  induction n with
  | zero => intro done buffer s r _ h; cases h
  | succ n ih =>
    intro done buffer s r hle h
    unfold readLoop at h
    split_ifs at h with hlt
    · simp only [cachePage_file] at h
      exact ih _ _ _ (by omega) h
    · cases h
      exact ⟨rfl, congrArg some (by omega)⟩

theorem Caches.vfsRead (h : Caches F f c s) (offset : ℕ) (buffer : ℕ → UInt8) (count : ℕ) :
    ∃ r, Vfs.vfsRead ((fileVolume F true).machine f) s 0 offset buffer count = some r ∧
      r.status = eok ∧ r.out = some count ∧ Caches F f c r.store ∧
      ∀ k < count, ∀ v, c (u64 (offset + k)) = some v → r.buffer k = v := by
  obtain ⟨r, hr, -, -, hbytes⟩ := vfsRead_spec h.holds offset count (fun _ => trivial)
  have hstore : Caches F f c s → Caches F f c r.store :=
    vfsRead_rel (R := fun s t => Caches F f c s → Caches F f c t) (fun _ => id)
      (fun _ _ _ h h' hs => h' (h hs)) (fun s po _ hs => ?_) hr
  · obtain ⟨hstatus, hout⟩ := readLoop_out (count + 1) 0 buffer s (Nat.zero_le _) hr
    refine ⟨r, hr, hstatus, hout, hstore h, fun k hk v hv => ?_⟩
    rcases hbytes k hk with hb | ⟨hb, -⟩
    · exact Option.some.inj (hb.symm.trans hv)
    · exact absurd (hb.symm.trans hv) (Option.some_ne_none v).symm
  · rw [cachePage_file]
    exact hs.hasPage (writePage_spec hs po false)

end

end LykOS.Vfs
