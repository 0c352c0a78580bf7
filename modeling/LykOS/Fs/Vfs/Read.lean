import LykOS.Fs.Vfs.Model

/-!
# What `vfs_read` returns

A vnode shows a byte at each position that is in its page cache or inside its file. `vfs_read` returns
these bytes; at the other positions it returns what was in the frames that it took or in the buffer
(`vfsRead_spec`). The invariant `Holds` says where the bytes are, and is kept.
-/

namespace LykOS.Vfs

open Function

/-! ## Pages and positions -/

def pageOf (x : ℕ) : ℕ := x - x % archPageGran

theorem pageOf_mod (x : ℕ) : pageOf x % archPageGran = 0 := by
  unfold pageOf archPageGran
  omega

theorem pageOf_add_mod (x : ℕ) : pageOf x + x % archPageGran = x := by
  unfold pageOf archPageGran
  omega

variable {g po vn : ℕ} {s : Store}

theorem pageOf_add {q : ℕ} (hpo : po % archPageGran = 0) (hq : q < archPageGran) :
    pageOf (po + q) = po := by
  unfold pageOf archPageGran at *
  omega

theorem add_mod_page {q : ℕ} (hpo : po % archPageGran = 0) (hq : q < archPageGran) :
    (po + q) % archPageGran = q := by
  unfold archPageGran at *
  omega

/-- The position of byte `k` of a read at `offset`; it wraps around in a cached vnode only. -/
def position (cached : Bool) (offset k : ℕ) : ℕ := if cached then u64 (offset + k) else offset + k

theorem position_zero {offset : ℕ} (cached : Bool) (h : offset < 2 ^ 64) :
    position cached offset 0 = offset := by
  cases cached
  · rfl
  · exact u64_of_lt h

/-! ## Bytes -/

/-- `v` is the byte that `c` has at `x`, or satisfies `G` where `c` has none. -/
def IsByte (c : ℕ → Option UInt8) (G : UInt8 → Prop) (x : ℕ) (v : UInt8) : Prop :=
  c x = some v ∨ c x = none ∧ G v

theorem isByte_getD {c : ℕ → Option UInt8} {G : UInt8 → Prop} {x : ℕ} {g : UInt8} (hg : G g) :
    IsByte c G x ((c x).getD g) := by
  cases hc : c x with
  | none => exact Or.inr ⟨hc, hg⟩
  | some v => exact Or.inl hc

theorem fill_read (f : File) {buffer : ℕ → UInt8} {offset count k : ℕ} (hk : k < count) :
    fill buffer (f.read offset count).2 k = (f.byte? (offset + k)).getD (buffer k) := by
  unfold fill File.read File.byte?
  by_cases hlt : offset + k < f.size
  · rw [if_pos hlt, List.getElem?_map, List.getElem?_range (by omega)]
    rfl
  · rw [if_neg hlt, List.getElem?_eq_none (by rw [List.length_map, List.length_range]; omega)]

/-! ## The invariant -/

/-- The store shows the bytes `c` of the vnode `vn` with the file `f`: those of the page cache, and
outside it those of the file. The frames of the cache are not free, and free frames hold bytes of
`G`. -/
structure Holds (M : Machine) (vn : ℕ) (f : File) (cached : Bool) (c : ℕ → Option UInt8)
    (G : UInt8 → Prop) (s : Store) : Prop where
  vnode : M.vnodes vn = f.vnode cached
  file : ∀ x, (cached = true → s.pageCache vn (pageOf x) = none) → c x = f.byte? x
  cache : ∀ x g, cached = true → s.pageCache vn (pageOf x) = some g →
    IsByte c G x (s.mem g (x % archPageGran))
  used : ∀ po g n, s.pageCache vn po = some g → s.taken ≤ n → M.frames n ≠ g
  free : ∀ n q, s.taken ≤ n → G (s.mem (M.frames n) q)

/-- Only frames that were free in `s` are written or added to a cache. -/
structure Grows (M : Machine) (s s' : Store) : Prop where
  taken : s.taken ≤ s'.taken
  mem : ∀ g, (∀ n, s.taken ≤ n → M.frames n ≠ g) → s'.mem g = s.mem g
  cache : ∀ vn po g, s'.pageCache vn po = some g →
    s.pageCache vn po = some g ∨ ∃ n, s.taken ≤ n ∧ M.frames n = g

theorem Grows.refl (M : Machine) (s : Store) : Grows M s s :=
  ⟨le_rfl, fun _ _ => rfl, fun _ _ _ h => Or.inl h⟩

theorem Grows.trans {M : Machine} {t u : Store} (h : Grows M s t) (h' : Grows M t u) :
    Grows M s u := by
  refine ⟨Nat.le_trans h.taken h'.taken, fun g hg => ?_, fun vn po g hu => ?_⟩
  · rw [h'.mem g fun n hn => hg n (Nat.le_trans h.taken hn), h.mem g hg]
  · rcases h'.cache vn po g hu with ht | ⟨n, hn, hf⟩
    · exact h.cache vn po g ht
    · exact Or.inr ⟨n, Nat.le_trans h.taken hn, hf⟩

theorem setMem_self (s : Store) (g : ℕ) (bytes : ℕ → UInt8) : (s.setMem g bytes).mem g = bytes :=
  update_self _ _ _

theorem setMem_of_ne (s : Store) {g' : ℕ} (h : g' ≠ g) (bytes : ℕ → UInt8) :
    (s.setMem g bytes).mem g' = s.mem g' :=
  update_of_ne h _ _

theorem addPage_pageCache (hnone : s.pageCache vn po = none) :
    (s.addPage vn po g).pageCache =
      update s.pageCache vn (update (s.pageCache vn) po (some g)) := by
  unfold Store.addPage
  rw [hnone]

theorem addPage_pageCache_apply (hnone : s.pageCache vn po = none) (po' : ℕ) :
    (s.addPage vn po g).pageCache vn po' = if po' = po then some g else s.pageCache vn po' := by
  rw [addPage_pageCache hnone, update_self, update_apply]

theorem cached_of_addPage {vn' po' g' : ℕ} (h : (s.addPage vn po g).pageCache vn' po' = some g') :
    s.pageCache vn' po' = some g' ∨ g' = g := by
  cases hpo : s.pageCache vn po with
  | some g₀ =>
    unfold Store.addPage at h
    rw [hpo] at h
    exact Or.inl h
  | none =>
    by_cases hvn : vn' = vn
    · subst hvn
      rw [addPage_pageCache_apply hpo] at h
      split_ifs at h
      · exact Or.inr (Option.some.inj h).symm
      · exact Or.inl h
    · rw [addPage_pageCache hpo, update_of_ne hvn] at h
      exact Or.inl h

theorem addPage_mem (s : Store) (vn po g : ℕ) : (s.addPage vn po g).mem = s.mem := by
  unfold Store.addPage
  cases s.pageCache vn po <;> rfl

theorem addPage_taken (s : Store) (vn po g : ℕ) : (s.addPage vn po g).taken = s.taken := by
  unfold Store.addPage
  cases s.pageCache vn po <;> rfl

section

variable {M : Machine} {vn : ℕ} {f : File} {cached : Bool} {c : ℕ → Option UInt8}
  {G : UInt8 → Prop} {s : Store}

theorem Holds.setMem (h : Holds M vn f cached c G s) {g : ℕ} (hg : ∀ n, s.taken ≤ n → M.frames n ≠ g)
    (hc : ∀ po, s.pageCache vn po ≠ some g) (bytes : ℕ → UInt8) :
    Holds M vn f cached c G (s.setMem g bytes) := by
  refine ⟨h.vnode, h.file, fun x g' hcd hx => ?_, h.used, fun n q hn => ?_⟩
  · have hne : g' ≠ g := fun heq => hc _ (heq ▸ hx)
    rw [setMem_of_ne s hne]
    exact h.cache x g' hcd hx
  · rw [setMem_of_ne s (hg n hn)]
    exact h.free n q hn

theorem Holds.alloc (h : Holds M vn f cached c G s) : Holds M vn f cached c G s.alloc :=
  ⟨h.vnode, h.file, h.cache, fun po g n hpo hn => h.used po g n hpo (Nat.le_of_succ_le hn),
    fun n q hn => h.free n q (Nat.le_of_succ_le hn)⟩

theorem frames_ne_of_alloc (M : Machine) (s : Store) {n : ℕ} (hn : s.alloc.taken ≤ n) :
    M.frames n ≠ M.frames s.taken := fun heq =>
  Nat.ne_of_gt hn (M.injective heq)

theorem Holds.addPage (h : Holds M vn f cached c G s) {po g : ℕ} (hnone : s.pageCache vn po = none)
    (hg : ∀ n, s.taken ≤ n → M.frames n ≠ g)
    (hbytes : ∀ x, pageOf x = po → IsByte c G x (s.mem g (x % archPageGran))) :
    Holds M vn f cached c G (s.addPage vn po g) := by
  have hcache := addPage_pageCache_apply (g := g) hnone
  refine ⟨h.vnode, fun x hx => h.file x fun hcd => ?_, fun x g' hcd hx => ?_, ?_, ?_⟩
  · have hx := hx hcd
    rw [hcache] at hx
    split_ifs at hx
    exact hx
  · rw [hcache] at hx
    rw [addPage_mem]
    split_ifs at hx with hpo
    · cases hx
      exact hbytes x hpo
    · exact h.cache x g' hcd hx
  · intro po' g' n hpo' hn
    rw [hcache] at hpo'
    rw [addPage_taken] at hn
    split_ifs at hpo' with hpo
    · cases hpo'
      exact hg n hn
    · exact h.used po' g' n hpo' hn
  · intro n q hn
    rw [addPage_mem]
    exact h.free n q (by rwa [addPage_taken] at hn)

theorem grows_alloc_setMem (M : Machine) (s : Store) (bytes : ℕ → UInt8) :
    Grows M s (s.alloc.setMem (M.frames s.taken) bytes) :=
  ⟨Nat.le_succ _, fun _ hg => setMem_of_ne s.alloc (hg _ le_rfl).symm bytes,
    fun _ _ _ h => Or.inl h⟩

theorem Grows.addPage {t : Store} (h : Grows M s t) {po n : ℕ} (hn : s.taken ≤ n) :
    Grows M s (t.addPage vn po (M.frames n)) := by
  refine ⟨by rw [addPage_taken]; exact h.taken, by rw [addPage_mem]; exact h.mem, ?_⟩
  intro vn' po' g hg
  rcases cached_of_addPage hg with hold | rfl
  · exact h.cache vn' po' g hold
  · exact Or.inr ⟨n, hn, rfl⟩

/-! ## The loop of `vfs_read` -/

theorem cachePage_spec (h : Holds M vn f true c G s) {po : ℕ} (hpo : po % archPageGran = 0) :
    ∃ g s', cachePage M s vn po = (.ok g, s') ∧ Holds M vn f true c G s' ∧ Grows M s s' ∧
      ∀ q < archPageGran, IsByte c G (po + q) (s'.mem g q) := by
  cases hc : s.pageCache vn po with
  | some g =>
    refine ⟨g, s, by unfold cachePage; rw [hc], h, Grows.refl M s, fun q hq => ?_⟩
    have hx := h.cache (po + q) g rfl (by rw [pageOf_add hpo hq]; exact hc)
    rwa [add_mod_page hpo hq] at hx
  | none =>
    let frame := M.frames s.taken
    let bytes := fill (s.mem frame) (f.read po archPageGran).2
    let s1 := s.alloc.setMem frame bytes
    have hfree : ∀ n, s1.taken ≤ n → M.frames n ≠ frame := fun n hn => frames_ne_of_alloc M s hn
    have h1 : Holds M vn f true c G s1 :=
      h.alloc.setMem hfree (fun po' hpo' => h.used po' frame _ hpo' le_rfl rfl) bytes
    have hbytes : ∀ x, pageOf x = po → IsByte c G x (s1.mem frame (x % archPageGran)) := by
      intro x hx
      have hbyte : bytes (x % archPageGran) =
          (f.byte? (po + x % archPageGran)).getD (s.mem frame (x % archPageGran)) :=
        fill_read f (Nat.mod_lt _ (by decide))
      have hxe : po + x % archPageGran = x := hx ▸ pageOf_add_mod x
      rw [setMem_self s.alloc frame bytes, hbyte, hxe, ← h.file x fun _ => hx ▸ hc]
      exact isByte_getD (h.free _ _ le_rfl)
    refine ⟨frame, s1.addPage vn po frame, ?_, h1.addPage hc hfree hbytes,
      (grows_alloc_setMem M s bytes).addPage le_rfl, fun q hq => ?_⟩
    · unfold cachePage
      rw [hc, h.vnode]
      rfl
    · have hx := hbytes (po + q) (pageOf_add hpo hq)
      rw [add_mod_page hpo hq] at hx
      rwa [addPage_mem]

theorem memcpy_page {offset done n : ℕ} {buffer data : ℕ → UInt8}
    (hdone : ∀ k < done, IsByte c G (u64 (offset + k)) (buffer k))
    (hdata : ∀ q < archPageGran, IsByte c G (pageOf (u64 (offset + done)) + q) (data q))
    (hn : u64 (offset + done) % archPageGran + n ≤ archPageGran) :
    ∀ k < done + n, IsByte c G (u64 (offset + k))
      (memcpy buffer done data (u64 (offset + done) % archPageGran) n k) := by
  intro k hk
  unfold memcpy
  split_ifs with hin
  · have hx := hdata (u64 (offset + done) % archPageGran + (k - done)) (by omega)
    have hpos : pageOf (u64 (offset + done)) + (u64 (offset + done) % archPageGran + (k - done)) =
        u64 (offset + k) := by
      rw [← Nat.add_assoc, pageOf_add_mod]
      unfold u64 archPageGran at *
      omega
    rwa [hpos] at hx
  · exact hdone k (by omega)

theorem readLoop_spec {offset count : ℕ} : ∀ (n done : ℕ) (buffer : ℕ → UInt8) (s : Store),
    Holds M vn f true c G s → done ≤ count → count - done < n →
    (∀ k < done, IsByte c G (u64 (offset + k)) (buffer k)) →
    ∃ r, readLoop M vn offset count n done buffer s = some r ∧ Holds M vn f true c G r.store ∧
      Grows M s r.store ∧ ∀ k < count, IsByte c G (u64 (offset + k)) (r.buffer k) := by
  intro n
  induction n with
  | zero => intro done _ _ _ _ hn _; omega
  | succ n ih =>
    intro done buffer s h hle hn hdone
    unfold readLoop
    by_cases hlt : done < count
    · obtain ⟨g, s', hpage, h', hgrow, hbytes⟩ := cachePage_spec h (pageOf_mod (u64 (offset + done)))
      have hmod : u64 (offset + done) % archPageGran < archPageGran := Nat.mod_lt _ (by decide)
      have hcopy := memcpy_page hdone hbytes
        (n := min (archPageGran - u64 (offset + done) % archPageGran) (count - done)) (by omega)
      obtain ⟨r, hr, hr1, hr2, hr3⟩ := ih _ _ s' h' (by omega) (by omega) hcopy
      refine ⟨r, ?_, hr1, hgrow.trans hr2, hr3⟩
      rw [if_pos hlt]
      unfold pageOf at hpage
      simp only [hpage]
      exact hr
    · refine ⟨_, if_neg hlt, h, Grows.refl M s, fun k hk => hdone k (by omega)⟩

theorem vfsRead_spec (h : Holds M vn f cached c G s) (offset count : ℕ) {buffer : ℕ → UInt8}
    (hbuf : ∀ k, G (buffer k)) :
    ∃ r, vfsRead M s vn offset buffer count = some r ∧ Holds M vn f cached c G r.store ∧
      Grows M s r.store ∧ ∀ k < count, IsByte c G (position cached offset k) (r.buffer k) := by
  unfold vfsRead
  rw [h.vnode]
  cases cached with
  | true =>
    exact readLoop_spec (count + 1) 0 buffer s h (Nat.zero_le _) (by omega)
      fun k hk => absurd hk (Nat.not_lt_zero k)
  | false =>
    refine ⟨_, rfl, h, Grows.refl M s, fun k hk => ?_⟩
    have hfile := h.file (offset + k) fun hc => by cases hc
    show IsByte c G (offset + k) (fill buffer (f.read offset count).2 k)
    rw [fill_read f hk, ← hfile]
    exact isByte_getD (hbuf k)

end

/-! ## Any vnode -/

def CacheUsed (M : Machine) (s : Store) : Prop :=
  ∀ vn po g n, s.pageCache vn po = some g → s.taken ≤ n → M.frames n ≠ g

section

variable {M : Machine} {s t : Store}

variable {count offset po vn : ℕ} {buffer : ℕ → UInt8} {r : ReadResult}

theorem CacheUsed.addPage (h : CacheUsed M s) {g : ℕ} (hg : ∀ n, s.taken ≤ n → M.frames n ≠ g) :
    CacheUsed M (s.addPage vn po g) := by
  intro vn' po' g' n hcache hn
  rw [addPage_taken] at hn
  rcases cached_of_addPage hcache with hold | rfl
  · exact h vn' po' g' n hold hn
  · exact hg n hn

theorem CacheUsed.alloc_setMem (h : CacheUsed M s) (g : ℕ) (bytes : ℕ → UInt8) :
    CacheUsed M (s.alloc.setMem g bytes) := fun vn po g' n hcache hn =>
  h vn po g' n hcache (Nat.le_of_succ_le hn)

theorem cachePage_grows (M : Machine) (s : Store) (vn po : ℕ) :
    Grows M s (cachePage M s vn po).2 ∧ (CacheUsed M s → CacheUsed M (cachePage M s vn po).2) := by
  unfold cachePage
  cases hc : s.pageCache vn po with
  | some g => exact ⟨Grows.refl M s, id⟩
  | none =>
    have hgrows := grows_alloc_setMem M s (fill (s.mem (M.frames s.taken))
      ((M.vnodes vn).read po archPageGran).2)
    dsimp only
    split_ifs with hst
    · exact ⟨hgrows, fun h => h.alloc_setMem _ _⟩
    · exact ⟨hgrows.addPage le_rfl, fun h => (h.alloc_setMem _ _).addPage fun n hn =>
        frames_ne_of_alloc M s hn⟩

theorem readLoop_rel {R : Store → Store → Prop} (hrefl : ∀ s, R s s)
    (htrans : ∀ s₁ s₂ s₃, R s₁ s₂ → R s₂ s₃ → R s₁ s₃)
    (hpage : ∀ s po, po % archPageGran = 0 → R s (cachePage M s vn po).2) :
    ∀ (n done : ℕ) (buffer : ℕ → UInt8) (s : Store) {r : ReadResult},
      readLoop M vn offset count n done buffer s = some r → R s r.store := by
  intro n
  induction n with
  | zero => intro done buffer s r h; cases h
  | succ n ih =>
    intro done buffer s r h
    unfold readLoop at h
    split_ifs at h with hlt
    · have hone := hpage s (u64 (offset + done) - u64 (offset + done) % archPageGran)
        (by unfold archPageGran; omega)
      dsimp only at h
      generalize cachePage M s vn _ = page at h hone
      obtain ⟨res, s'⟩ := page
      cases res with
      | error st =>
        cases h
        exact hone
      | ok frame => exact htrans s s' r.store hone (ih _ _ s' h)
    · cases h
      exact hrefl s

theorem vfsRead_rel {R : Store → Store → Prop} (hrefl : ∀ s, R s s)
    (htrans : ∀ s₁ s₂ s₃, R s₁ s₂ → R s₂ s₃ → R s₁ s₃)
    (hpage : ∀ s po, po % archPageGran = 0 → R s (cachePage M s vn po).2)
    (h : vfsRead M s vn offset buffer count = some r) : R s r.store := by
  unfold vfsRead at h
  dsimp only at h
  split_ifs at h with hc
  · exact readLoop_rel hrefl htrans hpage _ _ _ _ h
  · cases h
    exact hrefl s

theorem vfsRead_grows (h : vfsRead M s vn offset buffer count = some r) :
    Grows M s r.store ∧ (CacheUsed M s → CacheUsed M r.store) :=
  vfsRead_rel (R := fun s t => Grows M s t ∧ (CacheUsed M s → CacheUsed M t))
    (fun s => ⟨Grows.refl M s, id⟩)
    (fun _ _ _ h h' => ⟨h.1.trans h'.1, fun hs => h'.2 (h.2 hs)⟩)
    (fun s po _ => cachePage_grows M s vn po) h

/-- The caches of `t` are those of `s`, but for new pages at aligned offsets. -/
def CacheExtends (s t : Store) : Prop :=
  ∀ vn po, (s.pageCache vn po = none → po % archPageGran ≠ 0) → t.pageCache vn po = s.pageCache vn po

theorem CacheExtends.trans {s₁ s₂ s₃ : Store} (h : CacheExtends s₁ s₂) (h' : CacheExtends s₂ s₃) :
    CacheExtends s₁ s₃ := by
  intro vn po hpo
  have hsame := h vn po hpo
  exact (h' vn po (by rwa [hsame])).trans hsame

theorem addPage_of_ne {vn' po' : ℕ} (hne : vn' = vn → po' ≠ po) (g : ℕ) :
    (s.addPage vn po g).pageCache vn' po' = s.pageCache vn' po' := by
  unfold Store.addPage
  cases hc : s.pageCache vn po with
  | some g₀ => rfl
  | none =>
    dsimp only
    by_cases hvn : vn' = vn
    · subst hvn
      rw [update_self, update_of_ne (hne rfl)]
    · rw [update_of_ne hvn]

theorem cachePage_extends (M : Machine) (s : Store) (vn : ℕ) (hpo : po % archPageGran = 0) :
    CacheExtends s (cachePage M s vn po).2 := by
  intro vn' po' h
  unfold cachePage
  cases hc : s.pageCache vn po with
  | some g => rfl
  | none =>
    dsimp only
    split_ifs
    · rfl
    · refine addPage_of_ne ?_ _
      rintro rfl rfl
      exact h hc hpo

theorem vfsRead_extends (h : vfsRead M s vn offset buffer count = some r) : CacheExtends s r.store :=
  vfsRead_rel (fun _ _ _ _ => rfl) (fun _ _ _ h h' => h.trans h')
    (fun s _ hpo => cachePage_extends M s vn hpo) h

end

end LykOS.Vfs
