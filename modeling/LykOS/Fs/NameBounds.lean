import LykOS.Fs.Initrd.Model
import LykOS.Sys.Sockets.Unix

/-!
# Where names are copied to

`vfs_create` cuts its path into `parent_path[256]` and `child_name[64]`, and `tmpfs_create` copies the name
once more, into the vnode; `process_entry` copies the name of an entry into its vnode. The models of these
functions have no result when a name does not fit; here are the bytes they store, one by one
(`vfsCreateStores`, `processEntryStores`), and when they all stay inside (`name_storage_iff`).
-/

namespace LykOS.NameBounds

open CStr Vfs Pathname Tmpfs Initrd Sockets List

/-- The buffers that names are copied to: those of `vfs_create`, and the field `name` of a vnode. -/
inductive Buffer
  | parentPath
  | childName
  | vnodeName
  deriving DecidableEq, Repr

def Buffer.size : Buffer → ℕ
  | .parentPath => 256
  | .childName => 64
  | .vnodeName => vfsMaxNameLen

structure Store where
  buffer : Buffer
  pos : ℕ
  byte : UInt8
  deriving DecidableEq, Repr

def Store.InBounds (s : Store) : Prop := s.pos < s.buffer.size

instance (s : Store) : Decidable s.InBounds := inferInstanceAs (Decidable (_ < _))

/-- `memcpy` to the start of a buffer. -/
def memcpy (b : Buffer) (bytes : List UInt8) : List Store := bytes.zipIdx.map fun x => ⟨b, x.2, x.1⟩

/-- `strcpy` to the start of a buffer. -/
def strcpy (b : Buffer) (s : CStr) : List Store := memcpy b (s.chars ++ [0])

/-- What `vfs_create(path, t, &out)` stores, up to the end of `tmpfs_create`. -/
def vfsCreateStores (root : ℕ) (ns : Nodes) (path : CStr) : List Store :=
  match strrchr path slash with
  | none => []
  | some c =>
    let childName := strAt path.chars (c + 1)
    memcpy .parentPath (path.chars.take c) ++ [⟨.parentPath, c, 0⟩] ++ strcpy .childName childName ++
      match vfsOpen (rootMount root) ns (path.take c) with
      | none => []
      | some r => if r.status < 0 then [] else strcpy .vnodeName childName

/-- What `bind(self, addr)` stores. -/
def bindStores (root : ℕ) (w : SockWorld) (self : ℕ) (addr : CStr) : List Store :=
  if SocketState.bound.toNat ≤ (w.sockets self).state.toNat then [] else vfsCreateStores root w.nodes addr

/-- What `process_entry` stores in the new vnode. -/
def processEntryStores (mem : List UInt8) (hdr : ℕ) : List Store :=
  match (pathNormalize mem hdr hdr).bind (memStr · hdr) with
  | none => []
  | some filename => strcpy .vnodeName (baseName filename)

/-! ## Bounds -/

/-- What is in front of the last slash and what is behind it fit the buffers, with their
terminators. -/
def PathFits (path : CStr) : Prop :=
  ∀ parent name, path.chars = parent ++ slash :: name → slash ∉ name →
    parent.length < Buffer.parentPath.size ∧ name.length < Buffer.childName.size

/-- Each byte of a call is stored inside its buffer, and a path that does not fit is refused with an
error before there is a new node. -/
structure CreateBounded (root : ℕ) (ns : Nodes) (path : CStr) (t : VnodeType) : Prop where
  stores : ∀ s ∈ vfsCreateStores root ns path, s.InBounds
  refused : ¬ PathFits path → ∃ st out ns', vfsCreate root ns path t = some (st, out, ns') ∧ st < 0 ∧
    ns'.node = ns.node

structure BindBounded (root : ℕ) (w : SockWorld) (sock : ℕ) (addr : CStr) : Prop where
  stores : ∀ s ∈ bindStores root w sock addr, s.InBounds
  refused : ¬ PathFits addr → ∃ st w', bind root w sock addr = some (st, w') ∧ st < 0 ∧
    w'.nodes.node = w.nodes.node

def entryName (filename : CStr) : CStr :=
  baseName ⟨normalize filename.chars, normalize_no_nul filename⟩

section

variable {root : ℕ} {ns : Nodes} {path : CStr} {t : VnodeType}

theorem forall_memcpy (b : Buffer) (bytes : List UInt8) :
    (∀ s ∈ memcpy b bytes, s.InBounds) ↔ bytes.length ≤ b.size := by
  unfold memcpy Store.InBounds
  constructor
  · intro h
    by_contra hlt
    have hget : b.size < bytes.length := Nat.lt_of_not_le hlt
    have hmem : (⟨b, b.size, bytes[b.size]⟩ : Store) ∈ bytes.zipIdx.map fun x => ⟨b, x.2, x.1⟩ :=
      mem_map.mpr ⟨(bytes[b.size], b.size), mem_zipIdx_iff_getElem?.mpr
        (getElem?_eq_getElem hget), rfl⟩
    exact Nat.lt_irrefl _ (h _ hmem)
  · intro h s hs
    obtain ⟨x, hx, rfl⟩ := mem_map.mp hs
    have hlt := (List.getElem?_eq_some_iff.mp (mem_zipIdx_iff_getElem?.mp hx)).1
    exact Nat.lt_of_lt_of_le hlt h

theorem forall_strcpy (b : Buffer) (s : CStr) :
    (∀ x ∈ strcpy b s, x.InBounds) ↔ s.chars.length < b.size := by
  unfold strcpy
  rw [forall_memcpy, length_append, length_singleton, Nat.succ_le_iff]

theorem forall_vfsCreateStores {parent name : List UInt8} (hpath : path.chars = parent ++ slash :: name)
    (hname : slash ∉ name) :
    (∀ s ∈ vfsCreateStores root ns path, s.InBounds) ↔
      parent.length < Buffer.parentPath.size ∧ name.length < Buffer.childName.size := by
  have htake : path.chars.take parent.length = parent := by rw [hpath, take_left]
  have hchild := strAt_behind hpath
  -- the name fits the vnode if it fits the buffer it comes from
  have hvnode : name.length < Buffer.childName.size → ∀ s ∈
      (match vfsOpen (rootMount root) ns (path.take parent.length) with
        | none => []
        | some r => if r.status < 0 then [] else
            strcpy .vnodeName (strAt path.chars (parent.length + 1))), s.InBounds := by
    intro hlt
    split
    · exact fun s hs => nomatch hs
    · split_ifs
      · exact fun s hs => nomatch hs
      · exact (forall_strcpy _ _).mpr (by rwa [hchild])
  unfold vfsCreateStores
  rw [strrchr_append hpath hname]
  simp only [forall_mem_append, forall_mem_singleton]
  rw [forall_memcpy, forall_strcpy, htake, hchild]
  constructor
  · exact fun h => ⟨h.1.1.2, h.1.2⟩
  · exact fun h => ⟨⟨⟨Nat.le_of_lt h.1, h.1⟩, h.2⟩, hvnode h.2⟩

theorem vfsCreateStores_inBounds_iff :
    (∀ s ∈ vfsCreateStores root ns path, s.InBounds) ↔ PathFits path := by
  rcases last_cases slash path.chars with hno | ⟨parent, name, hpath, hname⟩
  · have hchr : strrchr path slash = none := strrchrLoop_of_not_mem hno 0 none
    refine iff_of_true (fun s hs => ?_) fun parent name hpath => ?_
    · unfold vfsCreateStores at hs
      rw [hchr] at hs
      cases hs
    · exact absurd (hpath ▸ mem_append_right _ mem_cons_self) hno
  · rw [forall_vfsCreateStores hpath hname]
    constructor
    · intro h parent' name' hpath' hname'
      obtain ⟨rfl, rfl⟩ := last_unique (hpath.symm.trans hpath') hname hname'
      exact h
    · exact fun h => h parent name hpath hname

theorem pathFits_of_vfsCreate {r : ℤ × Option ℕ × Nodes} (h : vfsCreate root ns path t = some r) :
    PathFits path := by
  intro parent name hpath hname
  have hchild := strAt_behind hpath
  unfold vfsCreate at h
  rw [strrchr_append hpath hname] at h
  obtain ⟨_, hparent, h⟩ := Option.bind_eq_some_iff.mp h
  obtain ⟨_, hchildlen, -⟩ := Option.bind_eq_some_iff.mp h
  rw [hchild] at hchildlen
  exact ⟨(Option.guard_eq_some' _).mp hparent, (Option.guard_eq_some' _).mp hchildlen⟩

theorem createBounded_iff : CreateBounded root ns path t ↔ PathFits path :=
  ⟨fun h => vfsCreateStores_inBounds_iff.mp h.stores,
    fun h => ⟨vfsCreateStores_inBounds_iff.mpr h, fun hn => absurd h hn⟩⟩

theorem bindBounded_iff {w : SockWorld} {self : ℕ} {addr : CStr} :
    BindBounded root w self addr ↔ (w.sockets self).state ≠ .new ∨ PathFits addr := by
  have hstate : SocketState.bound.toNat ≤ (w.sockets self).state.toNat ↔ (w.sockets self).state ≠ .new := by
    cases (w.sockets self).state <;> decide
  by_cases hbound : (w.sockets self).state ≠ .new
  · have hstores : bindStores root w self addr = [] := if_pos (hstate.mpr hbound)
    refine iff_of_true ⟨fun s hs => ?_, fun _ => ⟨-einval, w, if_pos (hstate.mpr hbound), by decide, rfl⟩⟩
      (Or.inl hbound)
    rw [hstores] at hs
    cases hs
  · have hstores : bindStores root w self addr = vfsCreateStores root w.nodes addr :=
      if_neg fun h => hbound (hstate.mp h)
    constructor
    · intro h
      have hin := h.stores
      rw [hstores] at hin
      exact Or.inr (vfsCreateStores_inBounds_iff.mp hin)
    · intro h
      have hfits := h.resolve_left hbound
      exact ⟨by rw [hstores]; exact vfsCreateStores_inBounds_iff.mpr hfits, fun hn => absurd hfits hn⟩

theorem processEntryStores_eq {mem : List UInt8} {hdr : ℕ} {s : CStr} (hs : memStr mem hdr = some s) :
    processEntryStores mem hdr = strcpy .vnodeName (entryName s) := by
  obtain ⟨mem', hrun, hout⟩ := pathNormalize_memStr hs (Or.inl (Nat.le_refl hdr))
  unfold processEntryStores
  rw [hrun, Option.bind_some, hout]
  rfl

end

/-- Names are stored inside their buffers, and paths that do not fit are refused, exactly if: the
parts of the path of `vfs_create` fit; the same for the address of `bind`, unless the socket is
bound already; and the last component of the normalized file name of an entry has less than 64
characters. -/
theorem name_storage_iff (root : ℕ) :
    (∀ ns path t, CreateBounded root ns path t ↔ PathFits path) ∧
    (∀ w self addr, BindBounded root w self addr ↔ (w.sockets self).state ≠ .new ∨ PathFits addr) ∧
    ∀ mem hdr s, memStr mem hdr = some s →
      ((∀ x ∈ processEntryStores mem hdr, x.InBounds) ↔ (entryName s).chars.length < vfsMaxNameLen) := by
  refine ⟨fun ns path t => createBounded_iff, fun w self addr => bindBounded_iff, fun mem hdr s hs => ?_⟩
  rw [processEntryStores_eq hs, forall_strcpy]
  rfl

def longPath : CStr := .ofList (slash :: List.replicate 64 97) (by decide)

/-- Its terminator is stored behind `child_name`, so the call has no result. The same name in an
entry is stored behind the field of the vnode. -/
theorem name_storage_overflow :
    (⟨.childName, 64, 0⟩ ∈ vfsCreateStores 0 emptyRamdisk.nodes longPath ∧
      vfsCreate 0 emptyRamdisk.nodes longPath .socket = none ∧
      ¬ CreateBounded 0 emptyRamdisk.nodes longPath .socket) ∧
    ⟨.vnodeName, 64, 0⟩ ∈ processEntryStores (List.replicate 64 97 ++ [0]) 0 := by
  have hmem : ⟨.childName, 64, 0⟩ ∈ vfsCreateStores 0 emptyRamdisk.nodes longPath := by decide +kernel
  have hout : ¬ PathFits longPath := fun h =>
    absurd (vfsCreateStores_inBounds_iff.mpr h _ hmem) (by decide)
  refine ⟨⟨hmem, ?_, fun h => hout (createBounded_iff.mp h)⟩, by decide +kernel⟩
  exact Option.eq_none_iff_forall_ne_some.mpr fun r hr => hout (pathFits_of_vfsCreate hr)

/-- `/a` fits, and so does the name of the entry `b`. -/
theorem name_storage_iff_sample :
    CreateBounded 0 emptyRamdisk.nodes (.ofList [47, 97] rfl) .socket ∧
      memStr [98, 0] 0 = some (.ofList [98] rfl) ∧
      ∀ x ∈ processEntryStores [98, 0] 0, x.InBounds := by
  obtain ⟨hcreate, -, hentry⟩ := name_storage_iff 0
  have hs : memStr [98, 0] 0 = some (.ofList [98] rfl) := rfl
  refine ⟨(hcreate _ _ _).mpr fun parent name hpath hname => ?_, hs, (hentry _ _ _ hs).mpr ?_⟩
  · have hsplit : [] ++ slash :: [97] = parent ++ slash :: name := hpath
    obtain ⟨rfl, rfl⟩ := last_unique hsplit (by decide) hname
    decide
  · decide +kernel

end LykOS.NameBounds
