import LykOS.Lib.Dlist
import LykOS.Mm.Vmm.Faults
import LykOS.Mm.Vmm.Segments

/-!
# Gaps between segments

`vmm_find_space`, `vmm_is_in_bounds` and `vmm_mmap` on address spaces that are nearly full. The segments are
in a linked list, and `vmm_insert_seg` on its nodes is the insertion into the list of segments
(`insertSegNode_rep`).

A start that `vmm_find_space` returns is free, except that an empty address space is not asked for its size
(`find_space_sound_iff`). A gap between two segments that has exactly the length of the request is not found
(`find_space_complete`). `vmm_is_in_bounds` excludes the last byte that `vmm_find_space` includes, and lets
ranges in that wrap around (`in_bounds_agrees_iff`). `vmm_mmap` fails as it should only for `VMM_MAP_FIXED`:
the result 0 of the search is not looked at (`mmap_failure_clean_iff`).
-/

namespace LykOS.Vmm

open Interval List

/-! ## Insertion into the linked list -/

section Insert

open Dlist

variable {α : Type*} [DecidableEq α] (base : α → ℕ)

/-- The loop of `vmm_insert_seg`: the last node before the first one whose base is not smaller. -/
def insertPos (links : α → Link α) (b : ℕ) : ℕ → Option α → Option α → Option (Option α)
  | _, pos, none => some pos
  | 0, _, some _ => none
  | n + 1, pos, some x =>
    if base x < b then insertPos links b n (some x) (links x).next else some pos

/-- `vmm_insert_seg` on the nodes of the list. -/
def insertSegNode (h : Hdr α) (links : α → Link α) (seg : α) : Option (Hdr α × (α → Link α)) := do
  match ← insertPos base links (base seg) h.length.toNat none h.head with
  | some pos => insertAfter h links (some pos) seg
  | none => prepend h links seg

variable {base} {h : Hdr α} {links : α → Link α} {l : List α}

omit [DecidableEq α] in
theorem insertPos_linked {b n : ℕ} {prev pos : Option α} (hl : Linked links prev l)
    (hn : l.length ≤ n) :
    insertPos base links b n pos l.head? =
      some ((l.takeWhile fun x => base x < b).getLast?.or pos) := by
  induction l generalizing n prev pos with
  | nil =>
    cases n <;> rfl
  | cons x l ih =>
    cases n with
    | zero => exact absurd hn (Nat.not_succ_le_zero _)
    | succ n =>
      rw [head?_cons, insertPos, takeWhile_cons]
      by_cases hlt : base x < b
      · rw [if_pos hlt, hl.1, ih hl.2 (Nat.le_of_succ_le_succ hn), decide_eq_true hlt, if_pos rfl,
          getLast?_cons]
        cases (l.takeWhile fun x => decide (base x < b)).getLast? <;> rfl
      · rw [if_neg hlt, decide_eq_false hlt, if_neg Bool.false_ne_true]
        rfl

/-- The list of the nodes is the one with the segment inserted by its base. -/
theorem insertSegNode_rep (hr : Rep h links l) {seg : α} (hseg : seg ∉ l)
    (hlen : l.length + 1 < 2 ^ 64) :
    ∃ h' links', insertSegNode base h links seg = some (h', links') ∧
      Rep h' links' (insertByBase base seg l) := by
  have hpos : insertPos base links (base seg) h.length.toNat none h.head =
      some (l.takeWhile fun x => base x < base seg).getLast? := by
    rw [hr.head, insertPos_linked hr.linked hr.length.ge, Option.or_none]
  have hsplit : l.takeWhile (fun x => base x < base seg) ++ l.dropWhile (fun x => base x < base seg) =
      l := takeWhile_append_dropWhile
  unfold insertSegNode insertByBase
  rw [hpos, Option.bind_eq_bind, Option.bind_some]
  rcases eq_nil_or_concat (l.takeWhile fun x => base x < base seg) with hnil | ⟨init, p, hp⟩
  · rw [hnil, nil_append] at hsplit
    rw [hnil, hsplit]
    obtain ⟨h', links', heq, hrep, -⟩ := hr.prepend hseg hlen
    exact ⟨h', links', heq, hrep⟩
  · rw [concat_eq_append] at hp
    rw [hp, append_assoc, singleton_append] at hsplit
    rw [← hsplit] at hr hseg hlen
    obtain ⟨h', links', heq, hrep, -⟩ := hr.insertAfter hseg hlen
    rw [hp, getLast?_concat, append_assoc, singleton_append]
    exact ⟨h', links', heq, hrep⟩

/-- The segments 3 and 8 in a list. -/
def sampleLinks (n : ℕ) : Link ℕ := if n = 3 then ⟨none, some 8⟩ else ⟨some 3, none⟩

/-- A segment is inserted between one with a smaller and one with a larger base. -/
theorem insertSegNode_rep_sample :
    Rep ⟨2, some 3, some 8⟩ sampleLinks [3, 8] ∧
      ∃ h links, insertSegNode id ⟨2, some 3, some 8⟩ sampleLinks 5 = some (h, links) ∧
        Rep h links [3, 5, 8] := by
  have hr : Rep ⟨2, some 3, some 8⟩ sampleLinks [3, 8] := ⟨rfl, rfl, rfl, rfl, rfl, trivial⟩
  exact ⟨hr, insertSegNode_rep hr (by decide) (by decide)⟩

end Insert

/-! ## The search returns free space -/

/-- The range is inside the limits and overlaps no segment. -/
structure FreeRange (as : AddrSpace) (start len : ℕ) : Prop where
  inside : as.limitLow ≤ start ∧ start + len ≤ as.limitHigh + 1
  apart : ∀ s ∈ as.segments, Apart s.base s.len start len

/-- `vmm_insert_seg` adds just this segment and leaves the list sorted and disjoint. -/
structure Inserted (as : AddrSpace) (seg : Seg) : Prop where
  sorted : (vmmInsertSeg as seg).segments.Pairwise fun s t => s.base ≤ t.base
  disjoint : (vmmInsertSeg as seg).segments.Pairwise fun s t => Apart s.base s.len t.base t.len
  perm : (vmmInsertSeg as seg).segments.Perm (seg :: as.segments)

section Search

variable {as : AddrSpace} {len : ℕ}

theorem InOrder.tidy {lo hi : ℕ} (h : InOrder lo hi as) (hpos : ∀ s ∈ as.segments, 0 < s.len) :
    Tidy Seg.base Seg.len (hi + 1) lo as.segments :=
  .of_apart h.sorted h.disjoint fun s hs => ⟨(h.inside s hs).1, hpos s hs, (h.inside s hs).2⟩

theorem scanSpace_tidy {top : ℕ} (hlen : 0 < len) (htop : top + len ≤ 2 ^ 64) {l : List Seg}
    {start : ℕ} (h : Tidy Seg.base Seg.len top start l) :
    scanSpace len start l = firstFit Seg.base Seg.len len start l := by
  induction l generalizing start with
  | nil => rfl
  | cons s l ih =>
    obtain ⟨hlo, hpos, hle, hl⟩ := h
    unfold scanSpace firstFit
    rw [u64_of_lt (by omega), ih, u64_of_lt (by omega)]
    rwa [u64_of_lt (by omega)]

theorem findSpace_tidy (h : Tidy Seg.base Seg.len (as.limitHigh + 1) as.limitLow as.segments)
    (hlen : 0 < len) (hword : as.limitHigh + len < 2 ^ 64) (hne : as.segments ≠ []) :
    vmmFindSpace as len =
      if firstFit Seg.base Seg.len len as.limitLow as.segments + len ≤ as.limitHigh + 1 then
        firstFit Seg.base Seg.len len as.limitLow as.segments
      else 0 := by
  obtain ⟨s, hs⟩ := exists_mem_of_ne_nil _ hne
  obtain ⟨hlo, hpos, htop⟩ := h.bounds s hs
  have hfit : firstFit Seg.base Seg.len len as.limitLow as.segments ≤ as.limitHigh + 1 :=
    h.firstFit_le (by omega)
  have hempty : as.segments.isEmpty = false := by simpa using hne
  unfold vmmFindSpace
  rw [scanSpace_tidy hlen (by omega) h, hempty, if_neg Bool.false_ne_true]
  dsimp only
  rw [lastByte_eq (by omega) (by omega)]
  refine if_congr ?_ rfl rfl
  omega

/-- In an address space with segments, a start that is not 0 is a free range, and no segment begins
right behind it. -/
theorem findSpace_free (h : InOrder as.limitLow as.limitHigh as)
    (hpos : ∀ s ∈ as.segments, 0 < s.len) (hlen : 0 < len) (hword : as.limitHigh + len < 2 ^ 64)
    (hne : as.segments ≠ []) (hstart : vmmFindSpace as len ≠ 0) :
    as.limitLow ≤ vmmFindSpace as len ∧ vmmFindSpace as len + len ≤ as.limitHigh + 1 ∧
      ∀ s ∈ as.segments, s.base + s.len ≤ vmmFindSpace as len ∨ vmmFindSpace as len + len < s.base := by
  have htidy := h.tidy hpos
  rw [findSpace_tidy htidy hlen hword hne] at hstart ⊢
  split_ifs at hstart ⊢ with hfit
  · have hclear := htidy.clear (hasGap_of_firstFit hfit)
    exact ⟨hclear.reach_le, hfit, hclear.apart h.sorted⟩
  · exact absurd rfl hstart

theorem FreeRange.inserted (h : InOrder as.limitLow as.limitHigh as)
    (hpos : ∀ s ∈ as.segments, 0 < s.len) (hlen : 0 < len) {seg : Seg} {start : ℕ}
    (hfree : FreeRange as start len) (hbase : seg.base = start) (hseg : seg.len = len) :
    Inserted as seg := by
  subst hbase hseg
  have htidy := (h.tidy hpos).insert hfree.inside.1 hlen hfree.inside.2 hfree.apart
  exact ⟨htidy.sorted, htidy.pairwise.imp fun hle => apart_of_le (Or.inl hle),
    insertByBase_perm Seg.base seg as.segments⟩

/-- What `vmm_find_space` returns is free and can be inserted, exactly if there are segments or the
request fits into the empty address space. -/
theorem find_space_sound_iff (h : InOrder as.limitLow as.limitHigh as)
    (hpos : ∀ s ∈ as.segments, 0 < s.len) (hlen : 0 < len) (hword : as.limitHigh + len < 2 ^ 64)
    (hstart : vmmFindSpace as len ≠ 0) :
    FreeRange as (vmmFindSpace as len) len ∧
        (∀ seg : Seg, seg.base = vmmFindSpace as len → seg.len = len → Inserted as seg) ↔
      (as.segments = [] → as.limitLow + len ≤ as.limitHigh + 1) := by
  constructor
  · rintro ⟨hfree, -⟩ hnil
    have hlow : vmmFindSpace as len = as.limitLow := by rw [vmmFindSpace, hnil]; rfl
    rw [hlow] at hfree
    exact hfree.inside.2
  · intro hfits
    have hfree : FreeRange as (vmmFindSpace as len) len := by
      by_cases hnil : as.segments = []
      · have hlow : vmmFindSpace as len = as.limitLow := by rw [vmmFindSpace, hnil]; rfl
        rw [hlow]
        refine ⟨⟨le_rfl, hfits hnil⟩, fun s hs => ?_⟩
        rw [hnil] at hs
        cases hs
      · obtain ⟨hlo, hhi, hap⟩ := findSpace_free h hpos hlen hword hnil hstart
        exact ⟨⟨hlo, hhi⟩, fun s hs => apart_of_le ((hap s hs).imp_right Nat.le_of_lt)⟩
    exact ⟨hfree, fun seg hbase hseg => hfree.inserted h hpos hlen hbase hseg⟩

end Search

def twoPages : AddrSpace := ⟨[mmapSegment (anonymous 0x1000 0x1000 0) 0x1000], 0x1000, 0x2FFF⟩

theorem twoPages_inOrder : InOrder twoPages.limitLow twoPages.limitHigh twoPages :=
  ⟨⟨rfl, rfl⟩, pairwise_singleton _ _, pairwise_singleton _ _, by decide⟩

theorem find_space_sound_two_pages :
    vmmFindSpace twoPages 0x1000 = 0x2000 ∧ FreeRange twoPages 0x2000 0x1000 ∧
      ∀ seg : Seg, seg.base = 0x2000 → seg.len = 0x1000 → Inserted twoPages seg := by
  have heq : vmmFindSpace twoPages 0x1000 = 0x2000 := by decide
  have hsound := (@find_space_sound_iff twoPages 0x1000 twoPages_inOrder (by decide) (by decide)
    (by decide) (by decide)).mpr (fun hnil => by cases hnil)
  rw [heq] at hsound
  exact ⟨heq, hsound⟩

/-- The empty address space of one page is returned for two pages. -/
theorem find_space_empty_too_short :
    InOrder 0x1000 0x1FFF (vmmNewAddrSpace 0x1000 0x1FFF) ∧
      vmmFindSpace (vmmNewAddrSpace 0x1000 0x1FFF) 0x2000 = 0x1000 ∧
      ¬ FreeRange (vmmNewAddrSpace 0x1000 0x1FFF) 0x1000 0x2000 := by
  refine ⟨⟨⟨rfl, rfl⟩, List.Pairwise.nil, List.Pairwise.nil, by decide⟩, by decide, fun h => ?_⟩
  exact absurd h.inside.2 (by decide)

/-! ## The search finds what is free -/

/-- The range is free, and no segment begins in it or right behind it. -/
structure RoomAt (as : AddrSpace) (len x : ℕ) : Prop where
  low : as.limitLow ≤ x
  high : x + len ≤ as.limitHigh + 1
  apart : ∀ s ∈ as.segments, s.base + s.len ≤ x ∨ x + len < s.base

section Complete

variable {as : AddrSpace} {len : ℕ}

theorem scanSpace_room {x : ℕ} (hlen : 0 < len) (hx : x + len ≤ 2 ^ 64) {l : List Seg} {start : ℕ}
    (hstart : start ≤ x) (hap : ∀ s ∈ l, s.base + s.len ≤ x ∨ x + len < s.base) :
    scanSpace len start l ≤ x ∧
      (scanSpace len start l = start ∨ ∃ s ∈ l, s.base ≤ scanSpace len start l) := by
  induction l generalizing start with
  | nil => exact ⟨hstart, Or.inl rfl⟩
  | cons s l ih =>
    unfold scanSpace
    split_ifs with hlt
    · exact ⟨hstart, Or.inl rfl⟩
    · have hend : s.base + s.len ≤ x := by
        refine (hap s mem_cons_self).resolve_right fun hgt => hlt ?_
        have hle : u64 (start + len) ≤ start + len := Nat.mod_le _ _
        omega
      rw [u64_of_lt (by omega)]
      obtain ⟨hle, hfrom⟩ := ih hend fun t ht => hap t (mem_cons_of_mem _ ht)
      refine ⟨hle, Or.inr ?_⟩
      rcases hfrom with heq | ⟨t, ht, hb⟩
      · exact ⟨s, mem_cons_self, by omega⟩
      · exact ⟨t, mem_cons_of_mem _ ht, hb⟩

theorem findSpace_ne_zero (h : InOrder as.limitLow as.limitHigh as) (hlow : 0 < as.limitLow)
    (hhigh : as.limitHigh < 2 ^ 64) (hlen : 0 < len) {x : ℕ} (hx : RoomAt as len x) :
    vmmFindSpace as len ≠ 0 := by
  have hend := hx.high
  obtain ⟨hle, hfrom⟩ := scanSpace_room hlen (by omega) hx.low hx.apart
  have hge : as.limitLow ≤ scanSpace len as.limitLow as.segments := by
    rcases hfrom with heq | ⟨s, hs, hb⟩
    · exact heq.ge
    · exact (h.inside s hs).1.trans hb
  unfold vmmFindSpace
  simp only
  split_ifs with hnil hlast
  · omega
  · omega
  · rw [lastByte_eq (by omega) (by omega)] at hlast
    omega

/-- A start is returned where there is room for the request with no segment right behind it. There
is no other way to one that is free: where there are only gaps of the very length in front of
segments, 0 is returned. -/
theorem find_space_complete (h : InOrder as.limitLow as.limitHigh as) (hlow : 0 < as.limitLow)
    (hhigh : as.limitHigh < 2 ^ 64) (hlen : 0 < len) :
    ((∃ x, RoomAt as len x) → vmmFindSpace as len ≠ 0) ∧
      ((∀ s ∈ as.segments, 0 < s.len) → as.limitHigh + len < 2 ^ 64 → (∃ x, FreeRange as x len) →
        vmmFindSpace as len ≠ 0 → ∃ x, RoomAt as len x) := by
  refine ⟨fun ⟨x, hx⟩ => findSpace_ne_zero h hlow hhigh hlen hx, ?_⟩
  rintro hpos hword ⟨x, hx⟩ hstart
  by_cases hnil : as.segments = []
  · refine ⟨x, hx.inside.1, hx.inside.2, fun s hs => ?_⟩
    rw [hnil] at hs
    cases hs
  · obtain ⟨hlo, hhi, hap⟩ := findSpace_free h hpos hlen hword hnil hstart
    exact ⟨_, hlo, hhi, hap⟩

end Complete

theorem find_space_complete_two_pages :
    InOrder twoPages.limitLow twoPages.limitHigh twoPages ∧ RoomAt twoPages 0x1000 0x2000 ∧
      vmmFindSpace twoPages 0x1000 ≠ 0 := by
  have hroom : RoomAt twoPages 0x1000 0x2000 := ⟨by decide, by decide, by decide⟩
  exact ⟨twoPages_inOrder, hroom, (find_space_complete twoPages_inOrder (by decide) (by decide)
    (by decide)).1 ⟨_, hroom⟩⟩

def holeInside : AddrSpace :=
  ⟨[mmapSegment (anonymous 0x1000 0x1000 0) 0x1000, mmapSegment (anonymous 0x3000 0x1000 0) 0x3000],
    0x1000, 0x3FFF⟩

theorem holeInside_inOrder : InOrder holeInside.limitLow holeInside.limitHigh holeInside := by
  refine ⟨⟨rfl, rfl⟩, by decide, ?_, by decide⟩
  refine pairwise_pair.mpr (apart_of_le (Or.inl ?_))
  decide

/-- The gap of one page between two segments is not found. -/
theorem find_space_misses_exact_gap :
    InOrder holeInside.limitLow holeInside.limitHigh holeInside ∧
      FreeRange holeInside 0x2000 0x1000 ∧ vmmFindSpace holeInside 0x1000 = 0 := by
  refine ⟨holeInside_inOrder, ⟨by decide, fun s hs => apart_of_le ?_⟩, by decide⟩
  revert s
  decide

/-! ## The two rules for bounds -/

/-- Where `vmm_is_in_bounds` and the inclusive rule of `vmm_find_space` agree: below the lower
limit; for a range that does not wrap around, if it does not end with the last byte that is allowed;
and for one that does, if all of the address space is allowed and it just reaches the end, or if it
reaches past the upper limit again. -/
def BoundsAgree (as : AddrSpace) (base len : ℕ) : Prop :=
  base < as.limitLow ∨
    if base + len < 2 ^ 64 then base + len ≠ as.limitHigh + 1
    else base + len = 2 ^ 64 ∧ as.limitHigh + 1 = 2 ^ 64 ∨ as.limitHigh + 2 ^ 64 < base + len

theorem in_bounds_agrees_iff {as : AddrSpace} {base len : ℕ} (hhigh : as.limitHigh < 2 ^ 64)
    (hbase : base < 2 ^ 64) (hlen : 0 < len) (hword : len < 2 ^ 64) :
    (vmmIsInBounds as base len = true ↔
        as.limitLow ≤ base ∧ base + len - 1 ≤ as.limitHigh) ↔ BoundsAgree as base len := by
  unfold vmmIsInBounds BoundsAgree u64
  rw [decide_eq_true_eq]
  by_cases hwrap : base + len < 2 ^ 64
  · rw [if_pos hwrap]
    omega
  · rw [if_neg hwrap]
    omega

theorem in_bounds_agrees_user :
    vmmIsInBounds (vmmNewAddrSpace archUserMinVirt archUserMaxVirt) 0x400000 0x1000 = true ↔
      archUserMinVirt ≤ 0x400000 ∧ 0x400000 + 0x1000 - 1 ≤ archUserMaxVirt :=
  (@in_bounds_agrees_iff (vmmNewAddrSpace archUserMinVirt archUserMaxVirt) 0x400000 0x1000 (by decide)
    (by decide) (by decide) (by decide)).mpr (Or.inr (by decide))

def lastPageFree : AddrSpace :=
  ⟨[mmapSegment (anonymous 0 0x7FFFFFFFF000 0) 0], archUserMinVirt, archUserMaxVirt⟩

/-- The last page of the user's address space is what `vmm_find_space` returns, and is not in bounds;
two pages that wrap around are. -/
theorem in_bounds_disagrees :
    vmmFindSpace lastPageFree 0x1000 = 0x7FFFFFFFF000 ∧
      (archUserMinVirt ≤ 0x7FFFFFFFF000 ∧ 0x7FFFFFFFF000 + 0x1000 - 1 ≤ archUserMaxVirt) ∧
      vmmIsInBounds lastPageFree 0x7FFFFFFFF000 0x1000 = false ∧
      vmmIsInBounds lastPageFree (2 ^ 64 - 0x1000) 0x2000 = true := by
  decide

/-! ## Failures of `vmm_mmap` -/

/-- The range has an address in common with a segment. -/
def Collides (as : AddrSpace) (a : MmapArgs) : Prop :=
  ∃ s ∈ as.segments, ¬ Apart s.base s.len a.virt a.len

def OutOfBounds (as : AddrSpace) (a : MmapArgs) : Prop :=
  ¬ (as.limitLow ≤ a.virt ∧ a.virt + a.len ≤ as.limitHigh + 1)

/-- Neither the range that is asked for nor a segment reaches past the last address. -/
def NoWrap (as : AddrSpace) (a : MmapArgs) : Prop :=
  a.virt + a.len < 2 ^ 64 ∧ ∀ s ∈ as.segments, s.base + s.len ≤ 2 ^ 64

section Failure

variable {M : Vfs.Machine} {st : State} {a : MmapArgs}

theorem mmapRefused_of_bad (hw : NoWrap st.as a) (h : Collides st.as a ∨ OutOfBounds st.as a) :
    mmapRefused st.as a = true := by
  by_contra href
  unfold mmapRefused at href
  rw [Bool.or_eq_true, not_or, Bool.not_eq_true, Bool.not_eq_true, Bool.not_eq_false'] at href
  obtain ⟨hcol, hin⟩ := href
  rcases h with ⟨s, hs, hov⟩ | hout
  · refine hov fun x hx1 hx2 hx3 => ?_
    have hsw := hw.2 s hs
    have hap := apart_of_checkCollision (by omega) hw.1.le hcol hs (by omega) hsw
    exact hap x hx1 hx2 hx3
  · refine hout ?_
    unfold vmmIsInBounds at hin
    rw [decide_eq_true_eq, u64_of_lt hw.1] at hin
    omega

theorem mmapPlace_of_failed {as : AddrSpace} (hok : mmapAsserts a = true)
    (href : mmapRefused as a = true) (hfixed : hasFlag a.flags vmmMapFixed = true) :
    mmapPlace as a = some (none, as) := by
  have hguard : (guard (mmapAsserts a = true) : Option Unit) = some () := if_pos hok
  simp only [mmapPlace, hguard, href, hfixed, Option.bind_eq_bind, Option.bind_some, Bool.and_self,
    if_true, Option.pure_def]

/-- `vmm_mmap` returns `VMM_MAP_FAILED` and leaves all as it was exactly if its checks refuse the
range and `VMM_MAP_FIXED` is set. They refuse every range that collides or is out of bounds, unless
it or a segment wraps around. -/
theorem mmap_failure_clean_iff (hok : mmapAsserts a = true) :
    (vmmMmap M st a = some (none, st) ↔
        hasFlag a.flags vmmMapFixed = true ∧ mmapRefused st.as a = true) ∧
      (Collides st.as a ∨ OutOfBounds st.as a → NoWrap st.as a → mmapRefused st.as a = true) := by
  refine ⟨⟨fun h => ?_, fun ⟨hfixed, href⟩ => ?_⟩, fun hbad hw => mmapRefused_of_bad hw hbad⟩
  · unfold vmmMmap at h
    obtain ⟨r, hr, h⟩ := Option.bind_eq_some_iff.mp h
    rcases mmapPlace_eq hr with ⟨href, hfixed, -⟩ | ⟨virt, -, -, rfl⟩
    · exact ⟨hfixed, href⟩
    · -- a mapping that is placed has an address
      dsimp only at h
      split_ifs at h
      · obtain ⟨st', -, h⟩ := Option.bind_eq_some_iff.mp h
        cases h
      · cases h
  · rw [vmmMmap, mmapPlace_of_failed hok href hfixed]
    rfl

end Failure

def fullSpace : State :=
  { sampleFaultSpace with as := ⟨[mmapSegment (anonymous 0x1000 0x1000 0) 0x1000], 0x1000, 0x1FFF⟩ }

theorem mmap_failure_clean_fixed :
    vmmMmap sampleFaultMachine fullSpace (anonymous 0x1000 0x1000 vmmMapFixed) =
      some (none, fullSpace) :=
  (mmap_failure_clean_iff (by decide)).1.mpr ⟨by decide, by decide⟩

/-- A request that collides where there is no gap is placed at address 0, below the lower limit. -/
theorem mmap_full_placed_at_zero :
    Collides fullSpace.as (anonymous 0x1000 0x1000 0) ∧ (∀ x, ¬ FreeRange fullSpace.as x 0x1000) ∧
      (vmmMmap sampleFaultMachine fullSpace (anonymous 0x1000 0x1000 0)).map
        (fun r => (r.1, r.2.as.segments.map Seg.base)) = some (some 0, [0, 0x1000]) := by
  refine ⟨⟨_, mem_cons_self, fun h => ?_⟩, fun x hx => ?_, by decide +kernel⟩
  · exact h 0x1000 le_rfl (by decide) ⟨le_rfl, by decide⟩
  · obtain ⟨hlo, hhi⟩ := hx.inside
    have hx0 : x = 0x1000 := by
      simp only [fullSpace] at hlo hhi
      omega
    subst hx0
    exact hx.apart _ mem_cons_self 0x1000 le_rfl (by decide) ⟨le_rfl, by decide⟩

end LykOS.Vmm
