import LykOS.Fs.Vfs.Cache
import LykOS.Lib.Rbtree.Next

/-!
# Closing a vnode

`vfs_close` of `fs/vfs.c`, on the red-black tree of the page cache. The loop takes the next node
before it removes the current one and frees it. What is in freed memory is arbitrary, so that a
result which does not depend on it was computed without it: `vfs_close_drains`.
-/

namespace LykOS.Vfs

open RedBlack Rbtree Run List

/-- The tree of a vnode, and `page_addr` of each `vnode_page_t`, which has the name of its tree
node. -/
structure PageTree where
  tree : Rbtree
  pageAddr : ℕ → ℕ

/-- What `vfs_close` does outside the tree: `ops->write` at an offset from an address, `pmm_free` and
`heap_free`. -/
inductive CloseEvent
  | write (offset addr : ℕ)
  | freeFrame (addr : ℕ)
  | freePage (vp : ℕ)
  deriving DecidableEq

/-- The memory of `vp` belongs to the heap again, which leaves `junk` there. -/
def PageTree.heapFree (c : PageTree) (vp : ℕ) (junk : RbtreeNode × ℕ) : PageTree where
  tree := c.tree.modify vp fun _ => junk.1
  pageAddr := Function.update c.pageAddr vp junk.2

/-- The status of `vfs_close`, and what it leaves. -/
structure CloseResult (β : Type) where
  status : ℤ
  pages : PageTree
  backend : β
  trace : List CloseEvent

section

variable {β : Type} (V : Volume β)

-- `low` is what memory holds at an address, without the offset of the higher-half window
variable (low : ℕ → ℕ → UInt8) (junk : ℕ → RbtreeNode × ℕ) (n : ℕ)

/-- The loop of `vfs_close`; `n` bounds the rounds of the loops of the tree. A failed write is only
logged. -/
def closeLoop : ℕ → Option ℕ → PageTree → β → List CloseEvent → Option (PageTree × β × List CloseEvent)
  | 0, _, _, _, _ => none
  | _ + 1, none, c, b, trace => some (c, b, trace)
  | k + 1, some vp, c, b, trace => do
    let key := (c.tree.nodes vp).key
    let (_, _, b) := V.write b key (low (c.pageAddr vp)) archPageGran
    let trace := trace ++ [.write key (c.pageAddr vp)]
    let node ← rbNext n c.tree vp
    let (_, tree) ← rbRemove n c.tree (c.tree.nodes vp).key
    let c := { c with tree }
    let trace := trace ++ [.freeFrame (c.pageAddr vp), .freePage vp]
    closeLoop k node (c.heapFree vp (junk vp)) b trace

/-- `vfs_close(vn)`, with `ops->close` if there is one. -/
def PageTree.vfsClose (close : Option (β → ℤ × β)) (c : PageTree) (b : β) : Option (CloseResult β) := do
  let node ← rbFirst n c.tree
  let (c, b, trace) ← closeLoop V low junk n n node c b []
  match close with
  | some close =>
    let (status, b) := close b
    return ⟨status, c, b, trace⟩
  | none => return ⟨eok, c, b, trace⟩

end

/-! ## Draining the page cache -/

def PageTree.events (c : PageTree) (vp : ℕ) : List CloseEvent :=
  [.write (c.tree.nodes vp).key (c.pageAddr vp), .freeFrame (c.pageAddr vp), .freePage vp]

/-- The backend after a page is written to it. -/
def PageTree.flush {β : Type} (V : Volume β) (low : ℕ → ℕ → UInt8) (c : PageTree) (b : β) (vp : ℕ) : β :=
  (V.write b (c.tree.nodes vp).key (low (c.pageAddr vp)) archPageGran).2.2

/-- The pages `vps` are written in the order of their offsets and freed, each once, the tree is
empty, and freed memory has what the heap left there. -/
structure Drained (junk : ℕ → RbtreeNode × ℕ) (c : PageTree) (vps : List ℕ) (c' : PageTree)
    (trace : List CloseEvent) : Prop where
  ascending : vps.Pairwise fun a b => (c.tree.nodes a).key < (c.tree.nodes b).key
  trace : trace = vps.flatMap c.events
  empty : c'.tree.root = none
  freed : ∀ a ∈ vps, c'.tree.nodes a = (junk a).1 ∧ c'.pageAddr a = (junk a).2
  others : ∀ a ∉ vps, c'.tree.nodes a = c.tree.nodes a ∧ c'.pageAddr a = c.pageAddr a

section

variable {β : Type} {V : Volume β} {low : ℕ → ℕ → UInt8} {junk : ℕ → RbtreeNode × ℕ} {n : ℕ}

/-- `c₁` is `c` after a round for `z`: its memory has what the heap left, the pages `rest` that are
still to come have their keys and frames, and what is no page is untouched. -/
structure RoundDone (junk : ℕ → RbtreeNode × ℕ) (c : PageTree) (z : ℕ) (rest : List ℕ) (c₁ : PageTree) :
    Prop where
  freed : c₁.tree.nodes z = (junk z).1 ∧ c₁.pageAddr z = (junk z).2
  kept : ∀ a ∈ rest, (c₁.tree.nodes a).key = (c.tree.nodes a).key ∧ c₁.pageAddr a = c.pageAddr a
  others : ∀ a ∉ z :: rest, c₁.tree.nodes a = c.tree.nodes a ∧ c₁.pageAddr a = c.pageAddr a

variable {c : PageTree} {z : ℕ} {rest : List ℕ}

theorem roundDone_heapFree {r : Rbtree} (hz : z ∉ rest)
    (hkey : ∀ a, (r.nodes a).key = (c.tree.nodes a).key)
    (hout : ∀ a ∉ z :: rest, r.nodes a = c.tree.nodes a) :
    RoundDone junk c z rest (PageTree.heapFree ⟨r, c.pageAddr⟩ z (junk z)) := by
  have hnode : ∀ a, a ≠ z →
      (PageTree.heapFree ⟨r, c.pageAddr⟩ z (junk z)).tree.nodes a = r.nodes a := fun a ha =>
    modify_of_ne r (fun _ => (junk z).1) ha
  have haddr : ∀ a, a ≠ z →
      (PageTree.heapFree ⟨r, c.pageAddr⟩ z (junk z)).pageAddr a = c.pageAddr a := fun a ha =>
    Function.update_of_ne ha _ _
  refine ⟨⟨modify_self r z fun _ => (junk z).1, Function.update_self _ _ _⟩, fun a ha => ?_,
    fun a ha => ?_⟩
  · have hne := ne_of_mem_of_not_mem ha hz
    rw [hnode a hne, hkey a, haddr a hne]
    exact ⟨rfl, rfl⟩
  · have hne : a ≠ z := fun he => ha (he ▸ mem_cons_self)
    rw [hnode a hne, haddr a hne]
    exact ⟨hout a ha, rfl⟩

theorem RoundDone.flush_eq {c₁ : PageTree} (h : RoundDone junk c z rest c₁) (b : β) :
    rest.foldl (c₁.flush V low) b = rest.foldl (c.flush V low) b := by
  refine foldl_ext _ _ _ fun b a ha => ?_
  unfold PageTree.flush
  rw [(h.kept a ha).1, (h.kept a ha).2]

theorem Drained.cons {c₁ c' : PageTree} {trace : List CloseEvent} (h : Drained junk c₁ rest c' trace)
    (hdone : RoundDone junk c z rest c₁) (hz : z ∉ rest)
    (hasc : (z :: rest).Pairwise fun a b => (c.tree.nodes a).key < (c.tree.nodes b).key) :
    Drained junk c (z :: rest) c' (c.events z ++ trace) := by
  refine ⟨hasc, ?_, h.empty, fun a ha => ?_, fun a ha => ?_⟩
  · rw [flatMap_cons, h.trace]
    congr 1
    refine flatMap_congr fun a ha => ?_
    unfold PageTree.events
    rw [(hdone.kept a ha).1, (hdone.kept a ha).2]
  · rcases mem_cons.mp ha with rfl | ha
    · rw [(h.others a hz).1, (h.others a hz).2]
      exact hdone.freed
    · exact h.freed a ha
  · have ha' : a ∉ rest := fun hr => ha (mem_cons_of_mem z hr)
    rw [(h.others a ha').1, (h.others a ha').2]
    exact hdone.others a ha

theorem closeLoop_spec : ∀ (vps : List ℕ) (k : ℕ) (c : PageTree) (b : β) (trace : List CloseEvent)
    (T : Shape ℕ), IsTree c.tree T → T.items = vps → vps.length < k → vps.length < n →
    ∃ c' trace', closeLoop V low junk n k vps.head? c b trace =
        some (c', vps.foldl (c.flush V low) b, trace ++ trace') ∧ Drained junk c vps c' trace' := by
  intro vps
  induction vps with
  | nil =>
    intro k c b trace T hT hitems hk _
    obtain ⟨k, rfl⟩ : ∃ m, k = m + 1 := ⟨k - 1, by rw [length_nil] at hk; omega⟩
    refine ⟨c, [], ?_, .nil, rfl, ?_, fun a ha => (nomatch ha), fun a _ => ⟨rfl, rfl⟩⟩
    · rw [List.append_nil]
      rfl
    · rw [hT.rep.root]
      cases T with
      | nil => rfl
      | node d l a s => simp [Shape.items] at hitems
  | cons z rest ih =>
    intro k c b trace T hT hitems hk hn
    rw [length_cons] at hk
    obtain ⟨k, rfl⟩ : ∃ m, k = m + 1 := ⟨k - 1, by omega⟩
    have hlen : T.items.length < n := by rwa [hitems]
    obtain ⟨hz, -⟩ := nodup_cons.mp (hitems ▸ hT.rep.nodup)
    have hfront : T.items = [] ++ z :: rest := hitems
    have hnext := rbNext_spec hT.rep hlen hfront
    obtain ⟨r', T', hremove, hT', hrest, hsame⟩ := rbRemove_head hT hlen hitems
    let c₁ : PageTree := PageTree.heapFree ⟨r', c.pageAddr⟩ z (junk z)
    have hdone : RoundDone junk c z rest c₁ := roundDone_heapFree hz (fun a => (hsame a).1)
      fun a ha => (hsame a).2.2 (hitems ▸ ha)
    have hT₁ : IsTree c₁.tree T' := hT'.congr rfl fun a ha =>
      modify_of_ne r' (fun _ => (junk z).1) (ne_of_mem_of_not_mem (hrest ▸ ha) hz)
    obtain ⟨c', trace', hrun, hdrained⟩ := ih k c₁ (c.flush V low b z) (trace ++ c.events z) T' hT₁ hrest
      (by omega) (by rw [length_cons] at hn; omega)
    refine ⟨c', c.events z ++ trace', ?_, hdrained.cons hdone hz (hitems ▸ hT.ordered)⟩
    rw [foldl_cons, ← hdone.flush_eq, ← append_assoc, ← hrun, head?_cons, closeLoop]
    simp only [hnext, hremove, Option.bind_eq_bind, Option.bind_some, append_assoc]
    rfl

theorem PageTree.vfsClose_spec {T : Shape ℕ} (hT : IsTree c.tree T) (hn : T.items.length < n)
    (close : Option (β → ℤ × β)) (b : β) :
    ∃ r, PageTree.vfsClose V low junk n close c b = some r ∧ Drained junk c T.items r.pages r.trace ∧
      (close = none → r.status = eok ∧ r.backend = T.items.foldl (c.flush V low) b) := by
  obtain ⟨c', trace, hrun, hdrained⟩ := closeLoop_spec T.items n c b [] T hT rfl hn hn
  unfold PageTree.vfsClose
  rw [rbFirst_spec hT.rep hn, Option.bind_eq_bind, Option.bind_some, hrun]
  cases close with
  | none => exact ⟨_, rfl, hdrained, fun _ => ⟨rfl, rfl⟩⟩
  | some close => exact ⟨_, rfl, hdrained, fun h => (nomatch h)⟩

end

theorem Drained.count_freePage {junk : ℕ → RbtreeNode × ℕ} {c c' : PageTree} {vps : List ℕ}
    {trace : List CloseEvent} (h : Drained junk c vps c' trace) (vp : ℕ) :
    trace.count (.freePage vp) = vps.count vp := by
  rw [h.trace]
  clear h
  induction vps with
  | nil => rfl
  | cons a vps ih =>
    rw [flatMap_cons, count_append, ih, count_cons, Nat.add_comm]
    simp [PageTree.events, count_cons]

theorem Drained.count_freeFrame {junk : ℕ → RbtreeNode × ℕ} {c c' : PageTree} {vps : List ℕ}
    {trace : List CloseEvent} (h : Drained junk c vps c' trace) (g : ℕ) :
    trace.count (.freeFrame g) = (vps.map c.pageAddr).count g := by
  rw [h.trace]
  clear h
  induction vps with
  | nil => rfl
  | cons a vps ih =>
    rw [flatMap_cons, count_append, ih, map_cons, count_cons, Nat.add_comm]
    simp [PageTree.events, count_cons]

/-- For a page cache that any sequence of insertions and removals built, and whatever the backend
does and the heap leaves in freed memory. Each `vnode_page_t` is freed once, and each frame if no
two pages have the same. -/
theorem vfs_close_drains {β : Type} (V : Volume β) (low : ℕ → ℕ → UInt8) (junk : ℕ → RbtreeNode × ℕ)
    (close : Option (β → ℤ × β)) (nodes : ℕ → RbtreeNode) {n : ℕ} {ops : List Op} (hn : ops.length < n)
    {w : World} (hrun : run (Rbtree.step n) (start nodes) ops = some w) (pageAddr : ℕ → ℕ) (b : β) :
    ∃ vps r, PageTree.vfsClose V low junk n close ⟨w.tree, pageAddr⟩ b = some r ∧
      (∀ vp, vp ∈ vps ↔ vp ∈ w.inserted) ∧ Drained junk ⟨w.tree, pageAddr⟩ vps r.pages r.trace ∧
      (∀ vp ∈ vps, r.trace.count (.freePage vp) = 1) ∧
      ((vps.map pageAddr).Nodup → ∀ vp ∈ vps, r.trace.count (.freeFrame (pageAddr vp)) = 1) := by
  obtain ⟨T, hT, hmap, hlen⟩ : Inv (0 + ops.length) w :=
    run_induction_count (fun m s o s' hm hs h => step_inv hm hs h) (by omega) (start_inv nodes) hrun
  have hitems : T.items.length < n := by omega
  obtain ⟨r, hclose, hdrained, -⟩ := PageTree.vfsClose_spec (c := ⟨w.tree, pageAddr⟩) hT hitems close b
  refine ⟨T.items, r, hclose, fun vp => hmap.mem_iff.symm, hdrained, fun vp hvp => ?_,
    fun hframes vp hvp => ?_⟩
  · rw [hdrained.count_freePage]
    exact count_eq_one_of_mem hT.rep.nodup hvp
  · rw [hdrained.count_freeFrame]
    exact count_eq_one_of_mem hframes (mem_map_of_mem hvp)

/-- Pages that seven insertions and two removals leave, each in a frame of its own. -/
theorem vfs_close_drains_sample :
    ∃ w vps r, run (Rbtree.step 19) (start fun _ => withKey 0) sampleOps = some w ∧
      PageTree.vfsClose (fileVolume sampleFrames true) (fun _ _ => 0) (fun _ => (withKey 0, 0)) 19 none
        ⟨w.tree, fun vp => vp * archPageGran⟩ sampleFile = some r ∧
      (∀ vp, vp ∈ vps ↔ vp ∈ w.inserted) ∧
      Drained (fun _ => (withKey 0, 0)) ⟨w.tree, fun vp => vp * archPageGran⟩ vps r.pages r.trace := by
  have hsome : (run (Rbtree.step 19) (start fun _ => withKey 0) sampleOps).isSome := by decide +kernel
  obtain ⟨w, hw⟩ := Option.isSome_iff_exists.mp hsome
  obtain ⟨vps, r, hclose, hmem, hdrained, -⟩ := vfs_close_drains (fileVolume sampleFrames true)
    (fun _ _ => 0) (fun _ => (withKey 0, 0)) none _ (by decide) hw (fun vp => vp * archPageGran) sampleFile
  exact ⟨w, vps, r, hw, hclose, hmem, hdrained⟩

end LykOS.Vfs
