import LykOS.Lib.Chain
import LykOS.Mm.Kmem.Model
import Mathlib.Data.List.Nodup
import Mathlib.Data.List.Flatten
import Mathlib.Tactic.Ring

/-!
# Slabs and their objects

The objects of a slab lie in its page after the header and do not overlap (`object_disjoint`), so
those of all slabs do not (`carved_disjoint`). `SlabInv` says that the free lists and the objects
`held` elsewhere make up exactly the objects carved so far; `cacheAllocFromSlabs` moves one object
from a free list to `held`.
-/

namespace LykOS.Kmem

open Chain Function List

/-- What the cache relies on about `pmm_alloc(0) + HHDM`: whole pages, none of them twice. -/
structure FreshPages (pages : ℕ → ℕ) : Prop where
  injective : Function.Injective pages
  aligned : ∀ i, archPageGran ∣ pages i
  ne_zero : ∀ i, pages i ≠ 0

/-- The sizes for which a slab holds an object and an object holds a link. -/
def SizeOk (size : ℕ) : Prop := 8 ≤ size ∧ size ≤ archPageGran - sizeofKmemSlab

instance (size : ℕ) : Decidable (SizeOk size) := inferInstanceAs (Decidable (_ ∧ _))

namespace KmemCache

def slabsAll (s : KmemCache) : List ℕ := s.slabs slabsFull ++ s.slabs slabsPartial

def carvedOf (s : KmemCache) (slab : ℕ) : List ℕ := (List.range s.objectCount).map (s.object slab)

def carved (s : KmemCache) : List ℕ := s.slabsAll.flatMap s.carvedOf

end KmemCache

/-! ## Where objects lie -/

section Objects

variable {s : KmemCache} (hs : SizeOk s.objectSize)

include hs in
theorem objectCount_pos : 0 < s.objectCount :=
  Nat.div_pos hs.2 (Nat.lt_of_lt_of_le (by decide) hs.1)

theorem object_in_slab (slab : ℕ) {i : ℕ} (hi : i < s.objectCount) :
    slab + sizeofKmemSlab ≤ s.object slab i ∧
      s.object slab i + s.objectSize ≤ slab + archPageGran := by
  have h : (i + 1) * s.objectSize ≤ archPageGran - sizeofKmemSlab :=
    (Nat.mul_le_mul_right _ hi).trans (Nat.div_mul_le_self _ _)
  have hg : sizeofKmemSlab ≤ archPageGran := by decide
  rw [Nat.add_mul, Nat.one_mul] at h
  unfold KmemCache.object
  omega

theorem object_disjoint (slab : ℕ) {i j : ℕ} (hij : i < j) :
    s.object slab i + s.objectSize ≤ s.object slab j := by
  have h : (i + 1) * s.objectSize ≤ j * s.objectSize := Nat.mul_le_mul_right _ hij
  rw [Nat.add_mul, Nat.one_mul] at h
  unfold KmemCache.object
  omega

theorem mem_carvedOf {slab o : ℕ} :
    o ∈ s.carvedOf slab ↔ ∃ i < s.objectCount, s.object slab i = o := by
  simp [KmemCache.carvedOf]

include hs in
theorem carvedOf_nodup (slab : ℕ) : (s.carvedOf slab).Nodup := by
  have hpos : 0 < s.objectSize := Nat.lt_of_lt_of_le (by decide) hs.1
  refine List.Nodup.map (fun i j h => ?_) nodup_range
  rcases Nat.lt_trichotomy i j with hij | hij | hij
  · have := object_disjoint (s := s) slab hij
    omega
  · exact hij
  · have := object_disjoint (s := s) slab hij
    omega

end Objects

theorem FreshPages.apart {pages : ℕ → ℕ} (hp : FreshPages pages) {i j : ℕ} (h : pages i < pages j) :
    pages i + archPageGran ≤ pages j := by
  obtain ⟨x, hx⟩ := hp.aligned i
  obtain ⟨y, hy⟩ := hp.aligned j
  rw [hx, hy] at h ⊢
  unfold archPageGran at *
  omega

theorem FreshPages.objects_apart {pages : ℕ → ℕ} (hp : FreshPages pages) {s : KmemCache}
    {x y i j : ℕ} (hne : pages x ≠ pages y) (hi : i < s.objectCount) (hj : j < s.objectCount) :
    s.object (pages x) i + s.objectSize ≤ s.object (pages y) j ∨
      s.object (pages y) j + s.objectSize ≤ s.object (pages x) i := by
  have h1 := object_in_slab (pages x) hi
  have h2 := object_in_slab (pages y) hj
  rcases Nat.lt_or_gt_of_ne hne with hlt | hlt
  · have := hp.apart hlt
    omega
  · have := hp.apart hlt
    omega

/-! ## The invariant of the slabs -/

/-- `fl b` is the free list of slab `b`, `held` are the objects on no free list, `others` the pages
that the cache uses for other things. -/
structure SlabInv (pages : ℕ → ℕ) (s : KmemCache) (fl : ℕ → List ℕ) (others held : List ℕ) :
    Prop where
  size : SizeOk s.objectSize
  nodup : (others ++ s.slabsAll).Nodup
  old : ∀ a ∈ others ++ s.slabsAll, ∃ i < s.taken, a = pages i
  chain : ∀ b ∈ s.slabsAll, Linked s.word (s.freelist b) (fl b)
  own : ∀ b ∈ s.slabsAll, (fl b).Subperm (s.carvedOf b)
  full_eq : ∀ b ∈ s.slabs slabsFull, fl b = []
  partial_ne : ∀ b ∈ s.slabs slabsPartial, fl b ≠ []
  tally : (held ++ s.slabsAll.flatMap fl).Perm s.carved

/-- Two states that differ in their slabs and the memory of these only. -/
structure SameMagazines (s s' : KmemCache) : Prop where
  objectSize : s'.objectSize = s.objectSize
  magazines : s'.magazines = s.magazines
  cpuCache : s'.cpuCache = s.cpuCache
  mag : s'.mag = s.mag
  taken : s.taken ≤ s'.taken

theorem SameMagazines.trans {s t u : KmemCache} (h : SameMagazines s t) (h' : SameMagazines t u) :
    SameMagazines s u :=
  ⟨h'.objectSize.trans h.objectSize, h'.magazines.trans h.magazines, h'.cpuCache.trans h.cpuCache,
    h'.mag.trans h.mag, h.taken.trans h'.taken⟩

section

variable {pages : ℕ → ℕ} (hp : FreshPages pages) {s : KmemCache} {fl : ℕ → List ℕ}
  {others held : List ℕ}

include hp in
theorem SlabInv.carved_disjoint (h : SlabInv pages s fl others held) {o o' : ℕ} (ho : o ∈ s.carved)
    (ho' : o' ∈ s.carved) (hne : o ≠ o') : o + s.objectSize ≤ o' ∨ o' + s.objectSize ≤ o := by
  obtain ⟨b, hb, hob⟩ := mem_flatMap.mp ho
  obtain ⟨b', hb', hob'⟩ := mem_flatMap.mp ho'
  obtain ⟨i, hi, rfl⟩ := mem_carvedOf.mp hob
  obtain ⟨j, hj, rfl⟩ := mem_carvedOf.mp hob'
  by_cases hbb : b = b'
  · subst hbb
    rcases Nat.lt_trichotomy i j with hij | rfl | hij
    · exact Or.inl (object_disjoint b hij)
    · exact absurd rfl hne
    · exact Or.inr (object_disjoint b hij)
  · obtain ⟨x, -, rfl⟩ := h.old b (by simp [hb])
    obtain ⟨y, -, rfl⟩ := h.old b' (by simp [hb'])
    exact hp.objects_apart hbb hi hj

include hp in
theorem SlabInv.carved_nodup (h : SlabInv pages s fl others held) : s.carved.Nodup := by
  rw [KmemCache.carved, nodup_flatMap]
  refine ⟨fun b _ => carvedOf_nodup h.size b, ?_⟩
  have hnd : s.slabsAll.Nodup := (nodup_append.mp h.nodup).2.1
  refine hnd.imp_of_mem fun {b b'} hb hb' hne => disjoint_left.mpr fun o ho ho' => ?_
  obtain ⟨i, hi, rfl⟩ := mem_carvedOf.mp ho
  obtain ⟨j, hj, hij⟩ := mem_carvedOf.mp ho'
  obtain ⟨x, -, rfl⟩ := h.old b (by simp [hb])
  obtain ⟨y, -, rfl⟩ := h.old b' (by simp [hb'])
  have hpos := h.size.1
  have := hp.objects_apart hne hi hj
  omega

/-! ## A new slab -/

theorem carve_spec (slab n i : ℕ) (s : KmemCache) (l : List ℕ) (hsz : 8 ≤ s.objectSize) (hslab : slab ≠ 0)
    (hl : Linked s.word (s.freelist slab) l) (hlt : ∀ o ∈ l, ∃ j < i, s.object slab j = o) :
      ∃ w f, carve slab n i s = { s with word := w, freelist := f } ∧
        Linked w (f slab) (((List.range' i n).map (s.object slab)).reverse ++ l) ∧
        (∀ b, b ≠ slab → f b = s.freelist b) ∧
        ∀ a, (∀ j < i + n, a ≠ s.object slab j) → w a = s.word a := by
  induction n generalizing i s l with
  | zero => exact ⟨s.word, s.freelist, rfl, by simpa using hl, fun _ _ => rfl, fun _ _ => rfl⟩
  | succ n ih =>
    set obj := s.object slab i with hobj
    have hnotin : obj ∉ l := by
      intro hmem
      obtain ⟨j, hj, hjo⟩ := hlt obj hmem
      have := object_disjoint (s := s) slab hj
      omega
    have hne : obj ≠ 0 := by
      have : slab ≤ obj := by rw [hobj]; unfold KmemCache.object; omega
      omega
    set t : KmemCache := { s with
      word := update s.word obj (s.freelist slab)
      freelist := update s.freelist slab obj } with ht
    have hlinked : Linked t.word (t.freelist slab) (obj :: l) := by
      have hf : t.freelist slab = obj := update_self _ _ _
      rw [hf]
      refine .cons hne ?_
      have hw : t.word obj = s.freelist slab := update_self _ _ _
      rw [hw]
      refine hl.frame fun x hx => update_of_ne ?_ _ _
      rintro rfl
      exact hnotin hx
    have hlt' : ∀ o ∈ obj :: l, ∃ j < i + 1, t.object slab j = o := by
      intro o ho
      rcases mem_cons.mp ho with rfl | ho
      · exact ⟨i, Nat.lt_succ_self i, rfl⟩
      · obtain ⟨j, hj, hjo⟩ := hlt o ho
        exact ⟨j, by omega, hjo⟩
    obtain ⟨w, f, heq, hlw, hfb, hwa⟩ := ih (i + 1) t (obj :: l) hsz hlinked hlt'
    refine ⟨w, f, ?_, ?_, ?_, ?_⟩
    · rw [carve]
      exact heq
    · rw [range'_succ, map_cons, reverse_cons, append_assoc]
      exact hlw
    · intro b hb
      rw [hfb b hb]
      exact update_of_ne hb _ _
    · intro a ha
      rw [hwa a fun j hj => ha j (by omega)]
      exact update_of_ne (ha i (by omega)) _ _

include hp in
theorem cacheMakeSlab_spec (hs : SizeOk s.objectSize) :
    ∃ w f, cacheMakeSlab pages s =
        (pages s.taken, { s with taken := s.taken + 1, word := w, freelist := f }) ∧
      Linked w (f (pages s.taken)) (s.carvedOf (pages s.taken)).reverse ∧
      (∀ b, b ≠ pages s.taken → f b = s.freelist b) ∧
      ∀ a, (∀ j < s.objectCount, a ≠ s.object (pages s.taken) j) → w a = s.word a := by
  have hl : Linked s.word (update s.freelist (pages s.taken) 0 (pages s.taken)) [] := by
    rw [update_self]
    exact .nil
  obtain ⟨w, f, heq, hlw, hfb, hwa⟩ := carve_spec (pages s.taken) s.objectCount 0
    ({ s with taken := s.taken + 1 }.setFreelist (pages s.taken) 0) [] hs.1 (hp.ne_zero _) hl (by simp)
  rw [List.append_nil, ← range_eq_range'] at hlw
  rw [Nat.zero_add] at hwa
  refine ⟨w, f, Prod.ext rfl heq, hlw, fun b hb => ?_, hwa⟩
  rw [hfb b hb]
  exact update_of_ne hb _ _

include hp in
theorem SlabInv.not_mem_new (h : SlabInv pages s fl others held) :
    pages s.taken ∉ others ++ s.slabsAll := by
  intro hmem
  obtain ⟨i, hi, he⟩ := h.old _ hmem
  exact Nat.ne_of_gt hi (hp.injective he)

include hp in
theorem SlabInv.ne_object_new (h : SlabInv pages s fl others held) {b x j : ℕ}
    (hb : b ∈ s.slabsAll) (hx : x ∈ fl b) (hj : j < s.objectCount) :
    x ≠ s.object (pages s.taken) j := by
  have hxc : x ∈ s.carved := h.tally.mem_iff.mp
    (mem_append_right _ (mem_flatMap.mpr ⟨b, hb, hx⟩))
  obtain ⟨b', hb', hxb'⟩ := mem_flatMap.mp hxc
  obtain ⟨i, hi, rfl⟩ := mem_carvedOf.mp hxb'
  have hne : b' ≠ pages s.taken := by
    rintro rfl
    exact h.not_mem_new hp (mem_append_right _ hb')
  obtain ⟨k, hk, rfl⟩ := h.old b' (mem_append_right _ hb')
  have hpos := h.size.1
  have := hp.objects_apart hne hi hj
  omega

theorem slabAppend_partial {t : KmemCache} {slab : ℕ} (hnil : t.slabs slabsPartial = [])
    (hnew : slab ∉ t.slabsAll) :
    t.slabAppend slabsPartial slab =
      some { t with slabs := update t.slabs slabsPartial [slab] } := by
  have hnot : ∀ j < 2, slab ∉ t.slabs j := by
    intro j hj hmem
    apply hnew
    rw [KmemCache.slabsAll, mem_append]
    rcases Nat.lt_succ_iff_lt_or_eq.mp hj with hj | rfl
    · obtain rfl : j = 0 := by omega
      exact Or.inl hmem
    · exact Or.inr hmem
  rw [KmemCache.slabAppend, Pool.append_eq (by decide) hnot, hnil, nil_append]
  rfl

include hp in
theorem SlabInv.makeSlab (h : SlabInv pages s fl others held) (hnil : s.slabs slabsPartial = []) :
    ∃ s' fl' slab, (cacheMakeSlab pages s).2.slabAppend slabsPartial (cacheMakeSlab pages s).1 =
        some s' ∧ s'.slabs slabsPartial = [slab] ∧ SlabInv pages s' fl' others held ∧
        SameMagazines s s' := by
  set slab := pages s.taken with hslab
  have hnew : slab ∉ others ++ s.slabsAll := h.not_mem_new hp
  obtain ⟨w, f, hmk, hlw, hfb, hwa⟩ := cacheMakeSlab_spec hp h.size
  set l := update s.slabs slabsPartial [slab] with hl
  set s' : KmemCache := { s with
    taken := s.taken + 1, word := w, freelist := f, slabs := l } with hs'
  have hpart : s'.slabs slabsPartial = [slab] := by
    show l slabsPartial = [slab]
    rw [hl, update_self]
  have hfull : s'.slabs slabsFull = s.slabs slabsFull := by
    show l slabsFull = s.slabs slabsFull
    rw [hl, update_of_ne (by decide)]
  have hall : s.slabsAll = s.slabs slabsFull := by
    rw [KmemCache.slabsAll, hnil, List.append_nil]
  have hall' : s'.slabsAll = s.slabsAll ++ [slab] := by
    rw [KmemCache.slabsAll, hpart, hfull, hall]
  set objs := (s.carvedOf slab).reverse
  have hobjs_perm : objs.Perm (s.carvedOf slab) := reverse_perm _
  have hfl : ∀ b ∈ s.slabsAll, update fl slab objs b = fl b := by
    intro b hb
    refine update_of_ne ?_ _ _
    rintro rfl
    exact hnew (by simp [hb])
  refine ⟨s', update fl slab objs, slab, ?_, hpart, ⟨h.size, ?_, ?_, ?_, ?_, ?_, ?_, ?_⟩,
    ⟨rfl, rfl, rfl, rfl, Nat.le_succ _⟩⟩
  · rw [hmk]
    exact slabAppend_partial hnil fun hmem => hnew (mem_append_right _ hmem)
  · rw [hall', ← append_assoc]
    exact nodup_append.mpr ⟨h.nodup, nodup_singleton _,
      fun a ha b hb hab => hnew (by rw [← mem_singleton.mp hb, ← hab]; exact ha)⟩
  · intro a ha
    rw [hall', ← append_assoc, mem_append, mem_singleton] at ha
    rcases ha with ha | rfl
    · obtain ⟨i, hi, he⟩ := h.old a ha
      exact ⟨i, Nat.lt_succ_of_lt hi, he⟩
    · exact ⟨s.taken, Nat.lt_succ_self _, rfl⟩
  · intro b hb
    rw [hall', mem_append, mem_singleton] at hb
    rcases hb with hb | rfl
    · rw [hfl b hb]
      have hne : b ≠ slab := by rintro rfl; exact hnew (by simp [hb])
      show Linked w (f b) (fl b)
      rw [hfb b hne]
      exact (h.chain b hb).frame fun x hx => hwa x fun j hj => h.ne_object_new hp hb hx hj
    · rw [update_self]
      exact hlw
  · intro b hb
    rw [hall', mem_append, mem_singleton] at hb
    rcases hb with hb | rfl
    · rw [hfl b hb]
      exact h.own b hb
    · rw [update_self]
      exact hobjs_perm.subperm
  · intro b hb
    rw [hfull] at hb
    rw [hfl b (by simp [KmemCache.slabsAll, hb])]
    exact h.full_eq b hb
  · intro b hb
    rw [hpart, mem_singleton] at hb
    subst hb
    rw [update_self]
    intro hnil'
    have := hobjs_perm.length_eq
    rw [hnil', KmemCache.carvedOf, length_map, length_range] at this
    have := objectCount_pos h.size
    simp_all
  · have hcarved : s'.carved = s.carved ++ s.carvedOf slab := by
      rw [KmemCache.carved, hall', flatMap_append]
      simp only [flatMap_cons, flatMap_nil, List.append_nil]
      rfl
    rw [hcarved, hall', flatMap_append, flatMap_congr hfl]
    simp only [flatMap_cons, flatMap_nil, List.append_nil, update_self]
    rw [← append_assoc]
    exact h.tally.append hobjs_perm

/-! ## Taking an object -/

theorem slab_move_full {t : KmemCache} {slab : ℕ} {rest : List ℕ} (hnd : t.slabsAll.Nodup)
    (hcons : t.slabs slabsPartial = slab :: rest) :
    ∃ l₁ l₂, t.slabRemove slabsPartial slab = some { t with slabs := l₁ } ∧
      ({ t with slabs := l₁ } : KmemCache).slabAppend slabsFull slab = some { t with slabs := l₂ } ∧
      l₂ slabsPartial = rest ∧ l₂ slabsFull = t.slabs slabsFull ++ [slab] := by
  have hslab : slab ∈ t.slabs slabsPartial := by rw [hcons]; exact mem_cons_self
  set l₁ := update t.slabs slabsPartial ((t.slabs slabsPartial).erase slab) with hl₁
  have hpart : l₁ slabsPartial = rest := by
    rw [hl₁, update_self, hcons, erase_cons_head]
  have hfull : l₁ slabsFull = t.slabs slabsFull := by
    rw [hl₁, update_of_ne (by decide)]
  have hnotin : ∀ j < 2, slab ∉ l₁ j := by
    intro j hj hmem
    have hndP := (nodup_append.mp hnd).2.1
    rw [hcons, nodup_cons] at hndP
    rcases Nat.lt_succ_iff_lt_or_eq.mp hj with hj | rfl
    · obtain rfl : j = slabsFull := Nat.lt_one_iff.mp hj
      rw [hfull] at hmem
      exact (nodup_append.mp hnd).2.2 slab hmem slab hslab rfl
    · exact hndP.1 (hpart ▸ hmem)
  refine ⟨l₁, update l₁ slabsFull (l₁ slabsFull ++ [slab]), ?_, ?_, ?_, ?_⟩
  · rw [KmemCache.slabRemove, Pool.remove_eq (show slabsPartial < 2 by decide) hslab]
    rfl
  · rw [KmemCache.slabAppend]
    simp only [Pool.append_eq (show slabsFull < 2 by decide) hnotin, Option.map_some]
  · rw [update_of_ne (by decide), hpart]
  · rw [update_self, hfull]

theorem SlabInv.pop (h : SlabInv pages s fl others held) {slab obj : ℕ} {t : List ℕ}
    (hslab : slab ∈ s.slabsAll) (hfl : fl slab = obj :: t) (ht : Linked s.word (s.word obj) t) :
    (∀ b ∈ s.slabsAll, Linked s.word ((s.setFreelist slab (s.word obj)).freelist b)
      (update fl slab t b)) ∧
      (∀ b ∈ s.slabsAll, (update fl slab t b).Subperm (s.carvedOf b)) ∧
      ((obj :: held) ++ s.slabsAll.flatMap (update fl slab t)).Perm s.carved := by
  have hnd : s.slabsAll.Nodup := (nodup_append.mp h.nodup).2.1
  refine ⟨fun b hb => ?_, fun b hb => ?_, ?_⟩
  · show Linked s.word (update s.freelist slab (s.word obj) b) _
    by_cases hbs : b = slab
    · subst hbs
      rw [update_self, update_self]
      exact ht
    · rw [update_of_ne hbs, update_of_ne hbs]
      exact h.chain b hb
  · by_cases hbs : b = slab
    · subst hbs
      rw [update_self]
      have hsub : t.Sublist (fl b) := hfl ▸ sublist_cons_self obj t
      exact hsub.subperm.trans (h.own b hb)
    · rw [update_of_ne hbs]
      exact h.own b hb
  · refine List.Perm.trans ?_ h.tally
    have hmove : (s.slabsAll.flatMap fl).Perm
        ([obj] ++ s.slabsAll.flatMap (update fl slab t)) :=
      Pool.flatMap_perm hnd hslab (by rw [update_self, hfl]; rfl)
        fun x _ hx => (update_of_ne hx _ _).symm
    refine List.Perm.trans ?_ (hmove.append_left held).symm
    exact perm_middle.symm

theorem SlabInv.takeObject (h : SlabInv pages s fl others held) {slab : ℕ} {rest : List ℕ}
    (hcons : s.slabs slabsPartial = slab :: rest) :
    ∃ obj s' fl', takeObject s slab = some (obj, s') ∧
      SlabInv pages s' fl' others (obj :: held) ∧ SameMagazines s s' := by
  have hslabP : slab ∈ s.slabs slabsPartial := by rw [hcons]; exact mem_cons_self
  have hslab : slab ∈ s.slabsAll := mem_append_right _ hslabP
  have hnd : s.slabsAll.Nodup := (nodup_append.mp h.nodup).2.1
  have hne0 : s.freelist slab ≠ 0 := fun h0 =>
    h.partial_ne slab hslabP ((h.chain slab hslab).eq_nil_iff.mpr h0)
  obtain ⟨t, hfl, ht⟩ := (h.chain slab hslab).of_ne_zero hne0
  set obj := s.freelist slab with hobj
  set s₁ := s.setFreelist slab (s.word obj) with hs₁
  have hf₁ : s₁.freelist slab = s.word obj := update_self _ _ _
  -- the invariant, but for the list on which the slab is
  obtain ⟨hchain, hown, htally⟩ := h.pop hslab hfl ht
  have hfull : ∀ b ∈ s.slabs slabsFull, update fl slab t b = [] := by
    intro b hb
    rw [update_of_ne]
    · exact h.full_eq b hb
    · rintro rfl
      exact (nodup_append.mp hnd).2.2 b hb b hslabP rfl
  have hg : (guard (obj ≠ 0) : Option Unit) = some () := if_pos hne0
  by_cases h0 : s.word obj = 0
  · -- the free list is used up: the slab moves to the full ones
    have htnil : t = [] := ht.eq_nil_iff.mpr h0
    obtain ⟨l₁, l₂, hrem, happ, hrest, hfulls⟩ := slab_move_full (t := s₁) hnd hcons
    change l₂ slabsFull = s.slabs slabsFull ++ [slab] at hfulls
    have hperm : (l₂ slabsFull ++ l₂ slabsPartial).Perm s.slabsAll := by
      rw [hrest, hfulls, KmemCache.slabsAll, hcons, append_assoc]
      rfl
    refine ⟨obj, { s₁ with slabs := l₂ }, update fl slab t, ?_,
      ⟨h.size, ?_, ?_, ?_, ?_, ?_, ?_, ?_⟩, ⟨rfl, rfl, rfl, rfl, le_rfl⟩⟩
    · simp only [Kmem.takeObject, ← hobj, ← hs₁, hg, hf₁, if_pos h0, hrem, happ, Option.bind_eq_bind,
        Option.bind_some, Option.pure_def]
    · exact (hperm.append_left others).nodup_iff.mpr h.nodup
    · exact fun a ha => h.old a ((hperm.append_left others).mem_iff.mp ha)
    · exact fun b hb => hchain b (hperm.mem_iff.mp hb)
    · exact fun b hb => hown b (hperm.mem_iff.mp hb)
    · intro b hb
      have hb' : b ∈ s.slabs slabsFull ++ [slab] := hfulls ▸ hb
      rcases mem_append.mp hb' with hb' | hb'
      · exact hfull b hb'
      · rw [mem_singleton.mp hb', update_self]
        exact htnil
    · intro b hb
      have hb' : b ∈ rest := hrest ▸ hb
      have hbP : b ∈ s.slabs slabsPartial := by rw [hcons]; exact mem_cons_of_mem _ hb'
      have hndP := (nodup_append.mp hnd).2.1
      rw [hcons, nodup_cons] at hndP
      rw [update_of_ne]
      · exact h.partial_ne b hbP
      · rintro rfl
        exact hndP.1 hb'
    · refine List.Perm.trans ((hperm.flatMap_right _).append_left _) (htally.trans ?_)
      exact (hperm.flatMap_right _).symm
  · refine ⟨obj, s₁, update fl slab t, ?_,
      ⟨h.size, h.nodup, h.old, hchain, hown, hfull, ?_, htally⟩, ⟨rfl, rfl, rfl, rfl, le_rfl⟩⟩
    · simp only [Kmem.takeObject, ← hobj, ← hs₁, hg, hf₁, if_neg h0, Option.bind_eq_bind,
        Option.bind_some, Option.pure_def]
    · intro b hb
      by_cases hbs : b = slab
      · subst hbs
        rw [update_self]
        exact fun htn => h0 (ht.eq_nil_iff.mp htn)
      · rw [update_of_ne hbs]
        exact h.partial_ne b hb

include hp in
theorem SlabInv.allocFromSlabs (h : SlabInv pages s fl others held) :
    ∃ obj s' fl', cacheAllocFromSlabs pages s = some (obj, s') ∧
      SlabInv pages s' fl' others (obj :: held) ∧ SameMagazines s s' := by
  by_cases hnil : s.slabs slabsPartial = []
  · obtain ⟨s₁, fl₁, slab, heq, hpart, h₁, hsame₁⟩ := h.makeSlab hp hnil
    obtain ⟨obj, s', fl', htake, h', hsame'⟩ := h₁.takeObject hpart
    refine ⟨obj, s', fl', ?_, h', hsame₁.trans hsame'⟩
    rw [cacheAllocFromSlabs, if_pos hnil]
    simp only [Option.bind_eq_bind, heq, Option.bind_some, hpart, head?_cons, htake]
  · obtain ⟨slab, rest, hcons⟩ := exists_cons_of_ne_nil hnil
    obtain ⟨obj, s', fl', htake, h', hsame'⟩ := h.takeObject hcons
    refine ⟨obj, s', fl', ?_, h', hsame'⟩
    rw [cacheAllocFromSlabs, if_neg hnil]
    simp only [Option.bind_eq_bind, Option.bind_some, hcons, head?_cons, htake]

end

end LykOS.Kmem
