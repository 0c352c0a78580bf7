import LykOS.Mm.Heap.Model
import LykOS.Mm.Kmem.Frame
import LykOS.Mm.Kmem.Runs
import Mathlib.Data.Nat.Pairing

/-!
# Routing in the heap

`CacheOk` is the invariant of one cache of the heap: that of `Kmem`, and that the headers of its slabs name
it. A call on one cache keeps it for all caches, since it writes to pages of its own only, and so does a
write into an outstanding object. So after every run (`heap_routes`) an allocation returns an object of the
smallest class that fits, both ways to free an object lead to the cache of that class, and `heap_realloc`
keeps the contents.
-/

namespace LykOS.Heap

open Kmem Run List
open Option hiding guard

/-! ## Pages -/

theorem slabOf_eq {b a : ℕ} (hb : archPageGran ∣ b) (hlo : b ≤ a) (hhi : a < b + archPageGran) :
    slabOf a = b := by
  obtain ⟨x, rfl⟩ := hb
  unfold slabOf slabSize
  unfold archPageGran at *
  omega

theorem slabOf_eq_iff {b a : ℕ} (hb : archPageGran ∣ b) :
    slabOf a = b ↔ b ≤ a ∧ a < b + archPageGran := by
  refine ⟨?_, fun h => slabOf_eq hb h.1 h.2⟩
  rintro rfl
  unfold slabOf slabSize archPageGran
  omega

theorem slabOf_header {b : ℕ} (hb : archPageGran ∣ b) : slabOf (b + cacheOffset) = b :=
  slabOf_eq hb (Nat.le_add_right _ _) (Nat.add_lt_add_left (by decide) b)

theorem slabOf_word (a : ℕ) : slabOf (a / 8 * 8) = slabOf a := by
  unfold slabOf slabSize
  omega

theorem Env.cacheAt_gCaches (env : Env) {i : ℕ} (hi : i < 8) :
    env.cacheAt (env.gCaches i) = some i := by
  unfold Env.cacheAt
  cases hf : (List.range 8).find? (env.gCaches · = env.gCaches i) with
  | none =>
    have hno := find?_eq_none.mp hf i (mem_range.mpr hi)
    exact absurd (decide_eq_true rfl) hno
  | some j =>
    have hj := find?_some hf
    rw [env.gCaches_injective (of_decide_eq_true hj)]

section

variable {env : Env} {h h' : State} {i j : ℕ} {s c : KmemCache} {out : List ℕ}

theorem commit_word (hg : Grows (env.pages i) s c) (hs : s.word = h.word) {a : ℕ}
    (ha : ∀ k, s.taken ≤ k → slabOf a ≠ env.pages i k) : (h.commit env i s c).word a = h.word a := by
  have hdvd := (env.fresh i).aligned
  have hnot : ¬ ∃ b ∈ c.slabsAll, b ∉ s.slabsAll ∧ a = b + cacheOffset := by
    rintro ⟨b, hb, hnew, rfl⟩
    rcases hg.slabs b hb with hold | ⟨k, hk, rfl⟩
    · exact hnew hold
    · exact ha k hk (slabOf_header (hdvd k))
  have hkeep : (h.commit env i s c).word a = c.word a := if_neg hnot
  rw [hkeep, ← hs]
  refine hg.word a fun k hk => ?_
  have hpage := (slabOf_eq_iff (hdvd k)).not.mp (ha k hk)
  omega

/-! ## The invariant of a cache -/

structure CacheOk (env : Env) (h : State) (i : ℕ) (out : List ℕ) : Prop where
  inv : ∃ lost, Inv (env.pages i) (cacheSize i) ⟨h.cache i, out⟩ lost
  header : ∀ b ∈ (h.caches i).slabsAll, h.word (b + cacheOffset) = env.gCaches i

/-- Object `o` of cache `i` is in the page `env.pages i k`, a slab. -/
structure Located (env : Env) (h : State) (i k o : ℕ) : Prop where
  taken : k < (h.caches i).taken
  slab : env.pages i k ∈ (h.caches i).slabsAll
  aligned : 8 ∣ o
  lo : env.pages i k + sizeofKmemSlab ≤ o
  hi : o + cacheSize i ≤ env.pages i k + archPageGran

namespace CacheOk

theorem objectSize (hc : CacheOk env h i out) : (h.caches i).objectSize = cacheSize i := by
  obtain ⟨lost, fl, ms, hinv⟩ := hc.inv
  exact hinv.objectSize

theorem slab_old (hc : CacheOk env h i out) {b : ℕ} (hb : b ∈ (h.caches i).slabsAll) :
    ∃ k < (h.caches i).taken, b = env.pages i k := by
  obtain ⟨lost, fl, ms, hinv⟩ := hc.inv
  exact hinv.slab.old b (mem_append_right _ hb)

theorem located (hc : CacheOk env h i out) (hi : i < 8) {o : ℕ} (ho : o ∈ (h.caches i).carved) :
    ∃ k, Located env h i k o := by
  obtain ⟨b, hb, hob⟩ := mem_flatMap.mp ho
  obtain ⟨n, hn, rfl⟩ := mem_carvedOf.mp hob
  obtain ⟨k, hk, rfl⟩ := hc.slab_old hb
  have hin := object_in_slab (env.pages i k) hn
  rw [hc.objectSize] at hin
  refine ⟨k, hk, hb, ?_, hin.1, hin.2⟩
  have hpage : 8 ∣ env.pages i k := Nat.dvd_trans (by decide) ((env.fresh i).aligned k)
  unfold KmemCache.object
  rw [hc.objectSize]
  exact Nat.dvd_add (Nat.dvd_add hpage (by decide)) ((dvd_cacheSize hi).mul_left n)

theorem perm (hc : CacheOk env h i out) {out' : List ℕ} (hp : out.Perm out') :
    CacheOk env h i out' := by
  obtain ⟨lost, fl, ms, hinv⟩ := hc.inv
  exact ⟨⟨lost, fl, ms, hinv.out_perm hp⟩, hc.header⟩

theorem frame (hc : CacheOk env h i out) (hcache : h'.caches i = h.caches i)
    (hobj : ∀ o ∈ (h.caches i).carved, o ∉ out → h'.word o = h.word o)
    (hhead : ∀ b ∈ (h.caches i).slabsAll, h'.word (b + cacheOffset) = h.word (b + cacheOffset)) :
    CacheOk env h' i out := by
  obtain ⟨lost, hinv⟩ := hc.inv
  refine ⟨⟨lost, ?_⟩, fun b hb => ?_⟩
  · have hinv' := hinv.frame (env.fresh i) hobj
    unfold State.cache
    rw [hcache]
    exact hinv'
  · rw [hcache] at hb
    rw [hhead b hb]
    exact hc.header b hb

theorem commit_other (hc : CacheOk env h j out) (hj : j < 8) (hij : j ≠ i)
    (hg : Grows (env.pages i) s c) (hs : s.word = h.word) : CacheOk env (h.commit env i s c) j out := by
  refine hc.frame (Function.update_of_ne hij _ _) (fun o ho _ => commit_word hg hs ?_)
    fun b hb => commit_word hg hs ?_
  · obtain ⟨k, hk⟩ := hc.located hj ho
    intro l _ he
    have hlo := hk.lo
    have hhi := hk.hi
    have hpos := cacheSize_pos hj
    rw [slabOf_eq ((env.fresh j).aligned k) (by omega) (by omega)] at he
    exact hij (env.apart j i k l he)
  · obtain ⟨k, -, rfl⟩ := hc.slab_old hb
    intro l _ he
    rw [slabOf_header ((env.fresh j).aligned k)] at he
    exact hij (env.apart j i k l he)

end CacheOk

theorem CacheOk.commit_self {lost : List ℕ}
    (hinv : Inv (env.pages i) (cacheSize i) ⟨c, out⟩ lost) (hg : Grows (env.pages i) s c)
    (hs : s.word = h.word)
    (hold : ∀ b ∈ s.slabsAll, (∃ k < s.taken, b = env.pages i k) ∧
      h.word (b + cacheOffset) = env.gCaches i) :
    CacheOk env (h.commit env i s c) i out := by
  have hcache : (h.commit env i s c).caches i = c := Function.update_self _ _ _
  have hdvd := (env.fresh i).aligned
  have hslab : ∀ b ∈ c.slabsAll, archPageGran ∣ b := by
    intro b hb
    obtain ⟨fl, ms, hinv⟩ := hinv
    obtain ⟨k, -, rfl⟩ := hinv.slab.old b (mem_append_right _ hb)
    exact hdvd k
  refine ⟨⟨lost, ?_⟩, fun b hb => ?_⟩
  · -- the headers are not among the objects
    have hobj : ∀ o ∈ c.carved, o ∉ out → (h.commit env i s c).word o = c.word o := by
      intro o ho _
      refine if_neg ?_
      rintro ⟨b, hb, -, rfl⟩
      obtain ⟨b', hb', hob⟩ := mem_flatMap.mp ho
      obtain ⟨n, hn, he⟩ := mem_carvedOf.mp hob
      have hin := object_in_slab b' hn
      rw [he] at hin
      have hpos : 8 ≤ c.objectSize := hinv.sizeOk.1
      have hsame : slabOf (b + cacheOffset) = b' :=
        slabOf_eq (hslab b' hb') (by omega) (by omega)
      rw [slabOf_header (hslab b hb)] at hsame
      have hoff : cacheOffset < sizeofKmemSlab := by decide
      omega
    have hinv' := hinv.frame (env.fresh i) hobj
    unfold State.cache
    rw [hcache]
    exact hinv'
  · rw [hcache] at hb
    by_cases hbs : b ∈ s.slabsAll
    · obtain ⟨⟨k, hk, rfl⟩, hhead⟩ := hold b hbs
      rw [← hhead]
      refine commit_word hg hs fun l hl he => ?_
      rw [slabOf_header (hdvd k)] at he
      have := (env.fresh i).injective he
      omega
    · exact if_pos ⟨b, hb, hbs, rfl⟩

end

/-! ## The invariant of the heap -/

def held (i : ℕ) (out : List (ℕ × ℕ)) : List ℕ := (out.filter (order ·.2 = i)).map Prod.fst

theorem mem_held {i o : ℕ} {out : List (ℕ × ℕ)} :
    o ∈ held i out ↔ ∃ p ∈ out, order p.2 = i ∧ p.1 = o := by
  simp only [held, List.mem_map, mem_filter, decide_eq_true_eq, and_assoc]

theorem held_cons_self (p : ℕ × ℕ) (out : List (ℕ × ℕ)) :
    held (order p.2) (p :: out) = p.1 :: held (order p.2) out := by
  rw [held, filter_cons, if_pos (decide_eq_true rfl), map_cons, held]

theorem held_cons_of_ne {i : ℕ} {p : ℕ × ℕ} (h : i ≠ order p.2) (out : List (ℕ × ℕ)) :
    held i (p :: out) = held i out := by
  rw [held, filter_cons, if_neg fun he => h (of_decide_eq_true he).symm, held]

theorem held_erase {p : ℕ × ℕ} {out : List (ℕ × ℕ)} (hp : p ∈ out) (i : ℕ) :
    (held i out).Perm (held i (p :: out.erase p)) :=
  ((perm_cons_erase hp).filter _).map _

structure HeapInv (env : Env) (w : World) : Prop where
  cache : ∀ i < 8, CacheOk env w.heap i (held i w.out)
  size : ∀ p ∈ w.out, p.2 ≤ 1024

section

variable {env : Env} {w : World} {p q : ℕ × ℕ}

namespace HeapInv

theorem carved (hw : HeapInv env w) (hp : p ∈ w.out) : p.1 ∈ (w.heap.caches (order p.2)).carved := by
  obtain ⟨lost, hinv⟩ := (hw.cache _ (order_lt (hw.size p hp))).inv
  exact (hinv.nodup (env.fresh _)).2 p.1 (mem_held.mpr ⟨p, hp, rfl, rfl⟩)

theorem located (hw : HeapInv env w) (hp : p ∈ w.out) : ∃ k, Located env w.heap (order p.2) k p.1 :=
  (hw.cache _ (order_lt (hw.size p hp))).located (order_lt (hw.size p hp)) (hw.carved hp)

end HeapInv

theorem Located.slabOf_eq {h : State} {i k o n : ℕ} (hk : Located env h i k o) (hn : n < cacheSize i) :
    slabOf (o + n) = env.pages i k := by
  have hlo := hk.lo
  have hhi := hk.hi
  exact Heap.slabOf_eq ((env.fresh i).aligned k) (by omega) (by omega)

theorem Located.slabOf_self {h : State} {i k o : ℕ} (hk : Located env h i k o) (hi : i < 8) :
    slabOf o = env.pages i k := by
  have hself := hk.slabOf_eq (cacheSize_pos hi)
  rwa [Nat.add_zero] at hself

theorem Located.outside {h : State} {i k o x : ℕ} (hk : Located env h i k o)
    (hx : slabOf x ≠ env.pages i k) : x < o ∨ o + cacheSize i ≤ x := by
  by_contra hin
  refine hx ?_
  have hx' := hk.slabOf_eq (n := x - o) (by omega)
  rwa [show o + (x - o) = x by omega] at hx'

namespace HeapInv

theorem class_unique (hw : HeapInv env w) {i j o : ℕ} (hi : i < 8) (hj : j < 8)
    (hio : o ∈ (w.heap.caches i).carved) (hjo : o ∈ (w.heap.caches j).carved) : i = j := by
  obtain ⟨k, hk⟩ := (hw.cache i hi).located hi hio
  obtain ⟨l, hl⟩ := (hw.cache j hj).located hj hjo
  exact env.apart i j k l ((hk.slabOf_self hi).symm.trans (hl.slabOf_self hj))

theorem disjoint (hw : HeapInv env w) (hp : p ∈ w.out) (hq : q ∈ w.out) (hne : p.1 ≠ q.1) :
    p.1 + cacheSize (order p.2) ≤ q.1 ∨ q.1 + cacheSize (order q.2) ≤ p.1 := by
  have hcp := order_lt (hw.size p hp)
  by_cases hpq : order p.2 = order q.2
  · have hq' := hw.carved hq
    rw [← hpq] at hq' ⊢
    obtain ⟨lost, hinv⟩ := (hw.cache _ hcp).inv
    have hdis := hinv.disjoint (env.fresh _) (hw.carved hp) hq' hne
    have hsize : (w.heap.cache (order p.2)).objectSize = cacheSize (order p.2) :=
      (hw.cache _ hcp).objectSize
    simp only [hsize] at hdis
    exact hdis
  · obtain ⟨k, hk⟩ := hw.located hp
    obtain ⟨l, hl⟩ := hw.located hq
    have hpage : slabOf q.1 ≠ env.pages (order p.2) k := by
      rw [hl.slabOf_self (order_lt (hw.size q hq))]
      exact fun he => hpq (env.apart _ _ _ _ he).symm
    have hpage' : slabOf p.1 ≠ env.pages (order q.2) l := by
      rw [hk.slabOf_self hcp]
      exact fun he => hpq (env.apart _ _ _ _ he)
    have hq' := hk.outside hpage
    have hp' := hl.outside hpage'
    omega

theorem commit (hw : HeapInv env w) {i : ℕ} {c : KmemCache} {lost : List ℕ} {out : List (ℕ × ℕ)}
    (hi : i < 8) (hg : Grows (env.pages i) (w.heap.cache i) c)
    (hinv : Inv (env.pages i) (cacheSize i) ⟨c, held i out⟩ lost)
    (hother : ∀ j, j ≠ i → (held j w.out).Perm (held j out)) (hsize : ∀ p ∈ out, p.2 ≤ 1024) :
    HeapInv env ⟨w.heap.commit env i (w.heap.cache i) c, out⟩ := by
  refine ⟨fun j hj => ?_, hsize⟩
  by_cases hji : j = i
  · subst hji
    exact CacheOk.commit_self hinv hg rfl fun b hb =>
      ⟨(hw.cache j hj).slab_old hb, (hw.cache j hj).header b hb⟩
  · exact ((hw.cache j hj).perm (hother j hji)).commit_other hj hji hg rfl

theorem commit_byte (hw : HeapInv env w) {i n : ℕ} {c : KmemCache}
    (hg : Grows (env.pages i) (w.heap.cache i) c) (hp : p ∈ w.out) (hn : n < cacheSize (order p.2)) :
    Bytes.byteAt (w.heap.commit env i (w.heap.cache i) c).word (p.1 + n) =
      Bytes.byteAt w.heap.word (p.1 + n) := by
  obtain ⟨k, hk⟩ := hw.located hp
  refine Bytes.byteAt_congr (commit_word hg rfl fun l hl he => ?_)
  rw [slabOf_word, hk.slabOf_eq hn] at he
  obtain rfl := env.apart _ _ _ _ he
  have hkl := (env.fresh _).injective he
  have hold : k < (w.heap.cache (order p.2)).taken := hk.taken
  omega

theorem write (hw : HeapInv env w) (hp : p ∈ w.out) {word : ℕ → ℕ}
    (hkeep : ∀ x, x < p.1 ∨ p.1 + cacheSize (order p.2) ≤ x → word x = w.heap.word x) :
    HeapInv env ⟨⟨w.heap.caches, word⟩, w.out⟩ := by
  obtain ⟨k, hk⟩ := hw.located hp
  have hcp := order_lt (hw.size p hp)
  refine ⟨fun j hj => (hw.cache j hj).frame rfl (fun o ho hout => hkeep o ?_) fun b hb => hkeep _ ?_,
    hw.size⟩
  · by_cases hpage : slabOf o = env.pages (order p.2) k
    · -- an object of the same slab: of the same cache, hence apart
      obtain ⟨l, hl⟩ := (hw.cache j hj).located hj ho
      obtain rfl := env.apart _ _ _ _ ((hl.slabOf_self hj).symm.trans hpage)
      have hne : o ≠ p.1 := by
        rintro rfl
        exact hout (mem_held.mpr ⟨p, hp, rfl, rfl⟩)
      obtain ⟨lost, hinv⟩ := (hw.cache _ hcp).inv
      have hdis := hinv.disjoint (env.fresh _) ho (hw.carved hp) hne
      have hsize : (w.heap.cache (order p.2)).objectSize = cacheSize (order p.2) :=
        (hw.cache _ hcp).objectSize
      have hpos := cacheSize_pos hcp
      simp only [hsize] at hdis
      omega
    · exact hk.outside hpage
  · obtain ⟨l, -, rfl⟩ := (hw.cache j hj).slab_old hb
    by_cases hpage : env.pages j l = env.pages (order p.2) k
    · have hlo := hk.lo
      have hoff : cacheOffset < sizeofKmemSlab := by decide
      exact Or.inl (by omega)
    · refine hk.outside ?_
      rwa [slabOf_header ((env.fresh j).aligned l)]

theorem word_inside (hw : HeapInv env w) (hp : p ∈ w.out) {n x : ℕ} (hn : n < cacheSize (order p.2))
    (hx : x < p.1 ∨ p.1 + cacheSize (order p.2) ≤ x) : x ≠ (p.1 + n) / 8 * 8 := by
  obtain ⟨k, hk⟩ := hw.located hp
  obtain ⟨y, hy⟩ := hk.aligned
  obtain ⟨z, hz⟩ := dvd_cacheSize (order_lt (hw.size p hp))
  rw [hz] at hn hx
  rw [hy] at hx ⊢
  omega

end HeapInv

end

/-! ## The calls -/

/-- `i` is the smallest class for objects of `size`. -/
structure IsClass (i size : ℕ) : Prop where
  lt : i < 8
  fits : size ≤ cacheSize i
  least : ∀ j < 8, size ≤ cacheSize j → cacheSize i ≤ cacheSize j

theorem isClass_order {size : ℕ} (h : size ≤ 1024) : IsClass (order size) size := by
  refine ⟨order_lt h, le_cacheSize_order h, fun j hj hfit => ?_⟩
  rcases Nat.lt_or_eq_of_le ((order_le_iff hj size).mpr hfit) with hlt | heq
  · exact (cacheSize_lt hlt hj).le
  · rw [heq]

/-- An object of class `i`, all of it in one slab page of the cache, whose header names the cache. -/
structure Placed (env : Env) (h : State) (i obj : ℕ) : Prop where
  objectSize : (h.caches i).objectSize = cacheSize i
  carved : obj ∈ (h.caches i).carved
  in_slab : ∃ slab ∈ (h.caches i).slabsAll, archPageGran ∣ slab ∧ slab + sizeofKmemSlab ≤ obj ∧
    obj + cacheSize i ≤ slab + archPageGran ∧ h.word (slab + cacheOffset) = env.gCaches i

section

variable {env : Env} {w : World} {p : ℕ × ℕ} {cpu cpu' size : ℕ}

namespace HeapInv

theorem placed (hw : HeapInv env w) (hp : p ∈ w.out) : Placed env w.heap (order p.2) p.1 := by
  have hc := hw.cache _ (order_lt (hw.size p hp))
  obtain ⟨k, hk⟩ := hw.located hp
  exact ⟨hc.objectSize, hw.carved hp, env.pages _ k, hk.slab, (env.fresh _).aligned k, hk.lo, hk.hi,
    hc.header _ hk.slab⟩

theorem heapAlloc (hw : HeapInv env w) (hcpu : cpu < maxCpus) (hsize : size ≤ 1024) :
    ∃ obj c, kmemAllocCache (env.pages (order size)) (w.heap.cache (order size)) cpu = some (obj, c) ∧
      heapAlloc env w.heap cpu size =
        some (obj, w.heap.commit env (order size) (w.heap.cache (order size)) c) ∧
      Grows (env.pages (order size)) (w.heap.cache (order size)) c ∧
      HeapInv env ⟨w.heap.commit env (order size) (w.heap.cache (order size)) c,
        (obj, size) :: w.out⟩ := by
  have hi := order_lt hsize
  obtain ⟨lost, hinv⟩ := (hw.cache _ hi).inv
  obtain ⟨obj, c, heq, hinv', -⟩ := hinv.alloc (env.fresh _) hcpu
  have hg := kmemAllocCache_grows (env.fresh _) hinv.sizeOk heq
  have hinv'' : Inv (env.pages (order size)) (cacheSize (order size))
      ⟨c, held (order size) ((obj, size) :: w.out)⟩ lost := by
    rw [held_cons_self (obj, size)]
    exact hinv'
  refine ⟨obj, c, heq, ?_, hg, hw.commit hi hg hinv'' (fun j hj => ?_) fun p hp => ?_⟩
  · have hguard : (guard (size ≤ 1024) : Option Unit) = some () := if_pos hsize
    simp only [Heap.heapAlloc, hguard, heq, bind_eq_bind, Option.bind_some, Option.pure_def]
  · rw [held_cons_of_ne (p := (obj, size)) hj]
  · rcases mem_cons.mp hp with rfl | hp
    · exact hsize
    · exact hw.size p hp

theorem fresh_of_cons (hw : HeapInv env ⟨w.heap, p :: w.out⟩) : ∀ q ∈ w.out, q.1 ≠ p.1 := by
  intro q hq he
  have hp : p ∈ p :: w.out := mem_cons_self
  have hq' : q ∈ p :: w.out := mem_cons_of_mem _ hq
  have hcp := order_lt (hw.size p hp)
  have hclass : order q.2 = order p.2 :=
    hw.class_unique (order_lt (hw.size q hq')) hcp (hw.carved hq') (he ▸ hw.carved hp)
  obtain ⟨lost, hinv⟩ := (hw.cache _ hcp).inv
  have hnd := (hinv.nodup (env.fresh _)).1
  simp only [held_cons_self, nodup_cons] at hnd
  exact hnd.1 (mem_held.mpr ⟨q, hq, hclass, he⟩)

theorem heapFreeSize (hw : HeapInv env w) (hcpu : cpu < maxCpus) (hp : p ∈ w.out) :
    ∃ c, kmemFreeCache (env.pages (order p.2)) (w.heap.cache (order p.2)) cpu p.1 = some c ∧
      heapFreeSize env w.heap cpu p.1 p.2 =
        some (w.heap.commit env (order p.2) (w.heap.cache (order p.2)) c) ∧
      Grows (env.pages (order p.2)) (w.heap.cache (order p.2)) c ∧
      HeapInv env ⟨w.heap.commit env (order p.2) (w.heap.cache (order p.2)) c, w.out.erase p⟩ := by
  have hi := order_lt (hw.size p hp)
  obtain ⟨lost, hinv⟩ := (hw.cache _ hi).inv
  have hmem : p.1 ∈ held (order p.2) w.out := mem_held.mpr ⟨p, hp, rfl, rfl⟩
  obtain ⟨c, lost', heq, fl, ms, hinv'⟩ := hinv.free_any hcpu hmem
  have hg := kmemFreeCache_grows (env.fresh _) hinv.sizeOk heq
  have hout : ((held (order p.2) w.out).erase p.1).Perm (held (order p.2) (w.out.erase p)) := by
    have herase := held_erase hp (order p.2)
    rw [held_cons_self] at herase
    exact ((perm_cons_erase hmem).symm.trans herase).cons_inv
  refine ⟨c, heq, ?_, hg, hw.commit hi hg ⟨fl, ms, hinv'.out_perm hout⟩ (fun j hj => ?_) fun q hq => ?_⟩
  · have hguard : (guard (order p.2 < 8) : Option Unit) = some () := if_pos hi
    simp only [Heap.heapFreeSize, hguard, heq, bind_eq_bind, Option.bind_some, Option.pure_def]
  · have herase := held_erase hp j
    rwa [held_cons_of_ne hj] at herase
  · exact hw.size q (mem_of_mem_erase hq)

theorem heapFree_eq (hw : HeapInv env w) (hp : p ∈ w.out) :
    heapFree env w.heap cpu p.1 = Heap.heapFreeSize env w.heap cpu p.1 p.2 := by
  have hi := order_lt (hw.size p hp)
  have hc := hw.cache _ hi
  obtain ⟨k, hk⟩ := hw.located hp
  have hobj : (w.heap.cache (order p.2)).objectSize = cacheSize (order p.2) := hc.objectSize
  unfold heapFree
  rw [hk.slabOf_self hi, hc.header _ hk.slab, env.cacheAt_gCaches hi, bind_eq_bind, Option.bind_some, hobj]
  unfold Heap.heapFreeSize
  rw [order_cacheSize hi]

theorem heapRealloc (hw : HeapInv env w) (hcpu : cpu < maxCpus) (hcpu' : cpu' < maxCpus)
    (hp : p ∈ w.out) (hle : p.2 ≤ size) (hsize : size ≤ 1024) :
    ∃ obj h, heapRealloc env w.heap cpu cpu' p.1 p.2 size = some (obj, h) ∧
      HeapInv env ⟨h, (obj, size) :: w.out.erase p⟩ ∧
      ∀ n < p.2, Bytes.byteAt h.word (obj + n) = Bytes.byteAt w.heap.word (p.1 + n) := by
  obtain ⟨obj, c, -, halloc, hg, hw₁⟩ := hw.heapAlloc hcpu hsize
  set h₁ := w.heap.commit env (order size) (w.heap.cache (order size)) c with hh₁
  have hnew : (obj, size) ∈ (obj, size) :: w.out := mem_cons_self
  have hp₁ : p ∈ (obj, size) :: w.out := mem_cons_of_mem _ hp
  have hfit : p.2 ≤ cacheSize (order p.2) := le_cacheSize_order (hw.size p hp)
  have hfit' : p.2 ≤ cacheSize (order size) := hle.trans (le_cacheSize_order hsize)
  have hne : p.1 ≠ obj := hw₁.fresh_of_cons (w := ⟨h₁, w.out⟩) p hp
  set h₂ : State := ⟨h₁.caches, Bytes.copy h₁.word obj p.1 p.2⟩ with hh₂
  -- the copy writes into the new object
  have hw₂ : HeapInv env ⟨h₂, (obj, size) :: w.out⟩ := hw₁.write hnew fun x hx =>
    Bytes.copy_of_ne fun n hn => hw₁.word_inside hnew (Nat.lt_of_lt_of_le hn hfit') hx
  obtain ⟨c', -, hfree, hg', hw₃⟩ := hw₂.heapFreeSize hcpu' hp₁
  have hkeep : ∀ n < p.2, Bytes.byteAt h₂.word (obj + n) = Bytes.byteAt w.heap.word (p.1 + n) := by
    intro n hn
    have hdis : p.1 + cacheSize (order p.2) ≤ obj ∨ obj + cacheSize (order size) ≤ p.1 :=
      hw₁.disjoint hp₁ hnew hne
    rw [hh₂, Bytes.byteAt_copy (by omega), if_pos (by omega), Nat.add_sub_cancel_left, hh₁]
    exact hw.commit_byte hg hp (Nat.lt_of_lt_of_le hn hfit)
  have herase : ((obj, size) :: w.out).erase p = (obj, size) :: w.out.erase p := by
    refine erase_cons_tail ?_
    rw [beq_iff_eq]
    rintro rfl
    exact hne rfl
  have hnull : p.1 ≠ 0 := by
    obtain ⟨k, hk⟩ := hw.located hp
    have hlo := hk.lo
    have hpos : 0 < sizeofKmemSlab := by decide
    omega
  refine ⟨obj, h₂.commit env (order p.2) (h₂.cache (order p.2)) c', ?_, ?_, fun n hn => ?_⟩
  · simp only [Heap.heapRealloc, halloc, if_pos hnull, bind_eq_bind, Option.bind_some]
    rw [hfree, Option.bind_some, Option.pure_def]
  · rw [← herase]
    exact hw₃
  · rw [hw₂.commit_byte hg' hnew (Nat.lt_of_lt_of_le hn hfit')]
    exact hkeep n hn

end HeapInv

end

/-! ## Initialisation -/

theorem sizeOk_cacheSize : ∀ i < 8, SizeOk (cacheSize i) := by decide

theorem initCaches_spec (env : Env) (n i : ℕ) (h : State) (hin : i + n ≤ 8)
    (hok : ∀ j < i, CacheOk env h j []) :
    ∃ h', initCaches env n i h = some h' ∧ ∀ j < i + n, CacheOk env h' j [] := by
  induction n generalizing i h with
  | zero => exact ⟨h, rfl, hok⟩
  | succ n ih =>
    have hs := sizeOk_cacheSize i (by omega)
    obtain ⟨c, fl, ms, heq, hinv, -⟩ := kmemCacheIntialize_spec (env.fresh i) hs (h.cache i)
    have hg := kmemCacheIntialize_grows (env.fresh i) hs heq
    have hok' : ∀ j < i + 1,
        CacheOk env (h.commit env i { h.cache i with slabs := fun _ => [] } c) j [] := by
      intro j hj
      by_cases hji : j = i
      · subst hji
        have hself := CacheOk.commit_self (h := h) ⟨fl, ms, hinv⟩ hg rfl fun b hb =>
          absurd hb not_mem_nil
        exact hself
      · have hother := (hok j (by omega)).commit_other (by omega) hji hg rfl
        exact hother
    obtain ⟨h', heq', hok''⟩ := ih (i + 1) _ (by omega) hok'
    refine ⟨h', ?_, fun j hj => hok'' j (by omega)⟩
    simp only [initCaches, heq, bind_eq_bind, Option.bind_some]
    exact heq'

theorem heapInit_spec (env : Env) (memory : State) :
    ∃ h₀, heapInit env memory = some h₀ ∧ HeapInv env ⟨h₀, []⟩ := by
  obtain ⟨h₀, heq, hok⟩ := initCaches_spec env 8 0 memory le_rfl fun j hj =>
    absurd hj (Nat.not_lt_zero j)
  exact ⟨h₀, heq, hok, fun p hp => absurd hp not_mem_nil⟩

/-! ## Runs -/

section

variable {env : Env} {w w' : World}

theorem heapAlloc_le {h : State} {cpu size : ℕ} {r : ℕ × State}
    (he : heapAlloc env h cpu size = some r) : cpu < maxCpus ∧ size ≤ 1024 := by
  simp only [heapAlloc, bind_eq_bind, bind_eq_some_iff] at he
  obtain ⟨_, hg, ⟨obj, c⟩, heq, -⟩ := he
  exact ⟨kmemAllocCache_lt heq, (guard_eq_some' _).mp hg⟩

theorem heapFreeSize_lt {h h' : State} {cpu obj size : ℕ}
    (he : heapFreeSize env h cpu obj size = some h') : cpu < maxCpus := by
  simp only [heapFreeSize, bind_eq_bind, bind_eq_some_iff] at he
  obtain ⟨_, -, c, heq, -⟩ := he
  exact kmemFreeCache_lt heq

theorem heapRealloc_null {h : State} {cpu cpu' oldSize newSize : ℕ} :
    heapRealloc env h cpu cpu' 0 oldSize newSize = heapAlloc env h cpu newSize := by
  simp only [heapRealloc, ne_eq, not_true_eq_false, if_false, bind_eq_bind, Option.pure_def]
  cases heapAlloc env h cpu newSize <;> rfl

theorem heapRealloc_lt {h : State} {cpu cpu' obj oldSize newSize : ℕ} {r : ℕ × State} (hobj : obj ≠ 0)
    (he : heapRealloc env h cpu cpu' obj oldSize newSize = some r) :
    cpu < maxCpus ∧ cpu' < maxCpus ∧ newSize ≤ 1024 := by
  simp only [heapRealloc, if_pos hobj, bind_eq_bind, bind_eq_some_iff] at he
  obtain ⟨⟨newObj, h₁⟩, halloc, h₂, hfree, -⟩ := he
  obtain ⟨hcpu, hsize⟩ := heapAlloc_le halloc
  exact ⟨hcpu, heapFreeSize_lt hfree, hsize⟩

theorem heapStep_inv {op : Op} (hw : HeapInv env w) (hstep : heapStep env w op = some w') :
    HeapInv env w' := by
  have hfree : ∀ {cpu : ℕ} {p : ℕ × ℕ} {h : State}, p ∈ w.out →
      heapFreeSize env w.heap cpu p.1 p.2 = some h → HeapInv env ⟨h, w.out.erase p⟩ := by
    intro cpu p h hp he
    obtain ⟨c, -, heq, -, hw'⟩ := hw.heapFreeSize (heapFreeSize_lt he) hp
    cases he.symm.trans heq
    exact hw'
  have halloc : ∀ {cpu size obj : ℕ} {h : State}, heapAlloc env w.heap cpu size = some (obj, h) →
      HeapInv env ⟨h, (obj, size) :: w.out⟩ := by
    intro cpu size obj h he
    obtain ⟨obj', c, -, heq, -, hw'⟩ := hw.heapAlloc (heapAlloc_le he).1 (heapAlloc_le he).2
    cases he.symm.trans heq
    exact hw'
  cases op with
  | alloc cpu size =>
    simp only [heapStep, bind_eq_bind, bind_eq_some_iff, Option.pure_def] at hstep
    obtain ⟨⟨obj, h⟩, heq, hw'⟩ := hstep
    cases hw'
    exact halloc heq
  | free cpu p =>
    simp only [heapStep, bind_eq_bind, bind_eq_some_iff, Option.pure_def] at hstep
    obtain ⟨_, hg, h, heq, hw'⟩ := hstep
    cases hw'
    have hp : p ∈ w.out := (guard_eq_some' _).mp hg
    rw [hw.heapFree_eq hp] at heq
    exact hfree hp heq
  | freeSize cpu p =>
    simp only [heapStep, bind_eq_bind, bind_eq_some_iff, Option.pure_def] at hstep
    obtain ⟨_, hg, h, heq, hw'⟩ := hstep
    cases hw'
    exact hfree ((guard_eq_some' _).mp hg) heq
  | realloc cpu cpu' p size =>
    simp only [heapStep, bind_eq_bind, bind_eq_some_iff, Option.pure_def] at hstep
    obtain ⟨_, hg, ⟨obj, h⟩, heq, hw'⟩ := hstep
    cases hw'
    by_cases hnull : p.1 = 0
    · rw [hnull, heapRealloc_null] at heq
      rw [if_pos hnull]
      exact halloc heq
    · obtain ⟨hp, hle⟩ := ((guard_eq_some' _).mp hg).resolve_left hnull
      obtain ⟨hcpu, hcpu', hsize⟩ := heapRealloc_lt hnull heq
      obtain ⟨obj', h', heq', hw', -⟩ := hw.heapRealloc hcpu hcpu' hp hle hsize
      cases heq.symm.trans heq'
      rw [if_neg hnull]
      exact hw'
  | store p k v =>
    simp only [heapStep, bind_eq_bind, bind_eq_some_iff, Option.pure_def] at hstep
    obtain ⟨_, hg, hw'⟩ := hstep
    cases hw'
    obtain ⟨hp, hk⟩ := (guard_eq_some' _).mp hg
    exact hw.write hp fun x hx => Bytes.setByte_of_ne (hw.word_inside hp hk hx) v

end

/-- `r` is the heap after `kmem_free_cache(&g_caches[i], obj)`. -/
def FreedTo (env : Env) (h : State) (cpu obj i : ℕ) (r : Option State) : Prop :=
  ∃ c, kmemFreeCache (env.pages i) (h.cache i) cpu obj = some c ∧
    r = some (h.commit env i (h.cache i) c)

/-- What the next call does, whichever it is. -/
structure Routed (env : Env) (w : World) : Prop where
  alloc : ∀ cpu < maxCpus, ∀ size ≤ 1024, ∃ i obj c h', IsClass i size ∧
    kmemAllocCache (env.pages i) (w.heap.cache i) cpu = some (obj, c) ∧
    heapAlloc env w.heap cpu size = some (obj, h') ∧ Placed env h' i obj ∧ ∀ p ∈ w.out, p.1 ≠ obj
  free : ∀ p ∈ w.out, ∃ i, IsClass i p.2 ∧ Placed env w.heap i p.1 ∧
    (∀ j < 8, p.1 ∈ (w.heap.caches j).carved → j = i) ∧
    ∀ cpu < maxCpus, FreedTo env w.heap cpu p.1 i (heapFree env w.heap cpu p.1) ∧
      FreedTo env w.heap cpu p.1 i (heapFreeSize env w.heap cpu p.1 p.2)
  realloc : ∀ cpu < maxCpus, ∀ cpu' < maxCpus, ∀ p ∈ w.out, ∀ size, p.2 ≤ size → size ≤ 1024 →
    ∃ i obj h', IsClass i size ∧ heapRealloc env w.heap cpu cpu' p.1 p.2 size = some (obj, h') ∧
      Placed env h' i obj ∧
      ∀ n < p.2, Bytes.byteAt h'.word (obj + n) = Bytes.byteAt w.heap.word (p.1 + n)

theorem HeapInv.routed {env : Env} {w : World} (hw : HeapInv env w) : Routed env w where
  alloc cpu hcpu size hsize := by
    obtain ⟨obj, c, hkmem, heq, -, hw'⟩ := hw.heapAlloc hcpu hsize
    refine ⟨order size, obj, c, _, isClass_order hsize, hkmem, heq, ?_, ?_⟩
    · exact hw'.placed mem_cons_self
    · exact hw'.fresh_of_cons (w := ⟨_, w.out⟩)
  free p hp := by
    have hsize := hw.size p hp
    refine ⟨order p.2, isClass_order hsize, hw.placed hp, fun j hj hmem => ?_, fun cpu hcpu => ?_⟩
    · exact hw.class_unique hj (order_lt hsize) hmem (hw.carved hp)
    · obtain ⟨c, hkmem, heq, -⟩ := hw.heapFreeSize hcpu hp
      exact ⟨⟨c, hkmem, (hw.heapFree_eq hp).trans heq⟩, c, hkmem, heq⟩
  realloc cpu hcpu cpu' hcpu' p hp size hle hsize := by
    obtain ⟨obj, h', heq, hw', hbytes⟩ := hw.heapRealloc hcpu hcpu' hp hle hsize
    exact ⟨order size, obj, h', isClass_order hsize, heq, hw'.placed mem_cons_self, hbytes⟩

/-- After every run of an initialised heap, `heap_alloc` returns an object of the smallest class that
fits, in one slab page; `heap_free` and `heap_free_size` both give an outstanding object back to the
cache of its class, the only one that it can come from; `heap_realloc` keeps the old bytes. -/
theorem heap_routes (env : Env) (memory : State) (ops : List Op) :
    ∃ h₀, heapInit env memory = some h₀ ∧
      ∀ w, run (heapStep env) ⟨h₀, []⟩ ops = some w → Routed env w := by
  obtain ⟨h₀, heq, hw₀⟩ := heapInit_spec env memory
  exact ⟨h₀, heq, fun w hr =>
    (run_induction (I := HeapInv env) (fun _ _ _ hw hstep => heapStep_inv hw hstep) hw₀ hr).routed⟩

def sampleEnv : Env where
  pages i k := samplePages (Nat.pair i k)
  gCaches i := i
  fresh _ :=
    { injective := fun _ _ he => (Nat.pair_eq_pair.mp (samplePages_fresh.injective he)).2
      aligned := fun _ => samplePages_fresh.aligned _
      ne_zero := fun _ => samplePages_fresh.ne_zero _ }
  apart _ _ _ _ he := (Nat.pair_eq_pair.mp (samplePages_fresh.injective he)).1
  gCaches_injective := Function.injective_id

theorem heap_routes_sample :
    ∃ h₀ w, heapInit sampleEnv ⟨fun _ => zeroMemory, fun _ => 0⟩ = some h₀ ∧
      run (heapStep sampleEnv) ⟨h₀, []⟩ [.alloc 3 20] = some w ∧ w.out ≠ [] ∧ Routed sampleEnv w := by
  obtain ⟨h₀, heq, h⟩ := heap_routes sampleEnv ⟨fun _ => zeroMemory, fun _ => 0⟩ []
  obtain ⟨_, obj, _, h', -, -, heq', -⟩ := (h ⟨h₀, []⟩ rfl).alloc 3 (by decide) 20 (by decide)
  obtain ⟨h₁, heq₁, h₁'⟩ := heap_routes sampleEnv ⟨fun _ => zeroMemory, fun _ => 0⟩ [.alloc 3 20]
  cases heq.symm.trans heq₁
  have hr : run (heapStep sampleEnv) ⟨h₀, []⟩ [.alloc 3 20] = some ⟨h', [(obj, 20)]⟩ := by
    rw [run_cons]
    simp only [heapStep, heq', bind_eq_bind, Option.bind_some, Option.pure_def, run_nil]
  exact ⟨h₀, _, heq, hr, cons_ne_nil _ _, h₁' _ hr⟩

end LykOS.Heap
