import LykOS.Fs.Vfs.Tree
import LykOS.Lib.Path

/-!
# The initial ramdisk

`initrd_init` of `fs/initrd.c` builds a tree of nodes from a USTAR archive that the boot loader has put in
memory. It works in place: the name of an entry is normalized inside its header, and cut at its slashes
while the node of its parent is looked up; the slashes are not put back.

The memory is that of the archive, and ends where the boot loader's module ends. A panic, a name that does
not fit a vnode and an access behind the end have no result.
-/

namespace LykOS.Initrd

open CStr Vfs Pathname

/-! ## Headers -/

/-- The offset of `filemode` in `ustar_hdr_t`, behind `filename`. -/
def modeField : ℕ := 100
def sizeField : ℕ := 124
def typeField : ℕ := 156
def magicField : ℕ := 257

def ustarMagic : List UInt8 := [117, 115, 116, 97, 114]

/-- `ustar_read_field(str, size)` with `n` read so far, where `str` is what memory holds from there on. A
`char` has a sign. -/
def ustarReadField : ℕ → UInt64 → List UInt8 → Option UInt64
  | 0, n, _ => some n
  | _ + 1, _, [] => none
  | size + 1, n, c :: str =>
    if c = 0 then some n else ustarReadField size (n * 8 + (c.toInt8.toInt64.toUInt64 - 48)) str

def vnodeType (type : UInt8) : Option VnodeType :=
  if type = 48 then some .reg
  else if type = 51 then some .char
  else if type = 52 then some .block
  else if type = 53 then some .dir
  else if type = 54 then some .fifo
  else none

/-! ## Entries -/

/-- The nodes, and the fields `vn.size` and `data` of each. -/
structure Ramdisk where
  nodes : Nodes
  size : ℕ → UInt64
  data : ℕ → ℕ

def rootNode : ℕ := 0

def emptyRamdisk : Ramdisk where
  nodes :=
    { node := fun vn => if vn = rootNode then some ⟨.ofList [47] rfl, .dir, []⟩ else none
      refCount := fun _ => 0
      next := 1 }
  size := fun _ => 0
  data := fun _ => 0

/-- The next slash of the path becomes a NUL. -/
def cutSlash (mem : List UInt8) (path : ℕ) : List UInt8 :=
  match strchr mem path slash with
  | some i => mem.set i 0
  | none => mem

/-- The loop of `process_entry` that looks for the parent: the memory, the nodes and `curr`. -/
def walkLoop : ℕ → List UInt8 → Nodes → ℕ → ℕ → Option (List UInt8 × Nodes × ℕ)
  | 0, _, _, _, _ => none
  | fuel + 1, mem, ns, curr, path => do
    if (← mem[path]?) = 0 then return (mem, ns, curr)
    else
      guard (0 ∈ mem.drop path)
      let mem := cutSlash mem path
      let comp := strAt mem path
      let (st, next, ns) ← initrdOpen ns curr comp
      if st = eok then walkLoop fuel mem ns (← next) (path + comp.chars.length + 1)
      else return (mem, ns, curr)

/-- `list_append(&parent->children, &node->list_node)` for a new node. -/
def attach (t : Ramdisk) (ns : Nodes) (parent : ℕ) (p node : Node) (size : UInt64) (data : ℕ) : Ramdisk where
  nodes :=
    { node := Function.update (Function.update ns.node parent
        (some { p with children := p.children ++ [ns.next] })) ns.next (some node)
      refCount := Function.update ns.refCount ns.next 0
      next := ns.next + 1 }
  size := Function.update t.size ns.next size
  data := Function.update t.data ns.next data

/-- The name of the node: what is behind the last slash. -/
def baseName (filename : CStr) : CStr :=
  match strrchr filename slash with
  | some p => filename.drop (p + 1)
  | none => filename

/-- `process_entry(hdr)`, with the header at position `hdr` of a memory that starts at `address`. The new
node is in no list while its parent is looked up. -/
def processEntry (address : ℕ) (mem : List UInt8) (t : Ramdisk) (hdr : ℕ) :
    Option (List UInt8 × Ramdisk) := do
  let mem ← pathNormalize mem hdr hdr
  let filename ← memStr mem hdr
  let name := baseName filename
  guard (name.chars.length < 64)
  let type ← vnodeType (← mem[hdr + typeField]?)
  let size ← ustarReadField 12 0 (mem.drop (hdr + sizeField))
  let (mem, ns, curr) ← walkLoop (mem.length + 1) mem t.nodes rootNode hdr
  let parent ← ns.node curr
  return (mem, attach t ns curr parent ⟨name, type, []⟩ size (address + hdr + 512))

/-! ## Archives -/

/-- `struct limine_file`, with the memory from its address on. -/
structure BootModule where
  path : CStr
  address : ℕ
  mem : List UInt8

/-- How far the next header is from one with this size; the arithmetic is that of `uint`. -/
def advance (size : UInt64) : ℕ :=
  let fileSize : UInt32 := size.toUInt32
  let blocks : UInt32 := (fileSize + 512 - 1) / 512
  ((blocks + 1) * 512).toNat

/-- Neither the header nor the one behind it has a magic. -/
def atEnd (mem : List UInt8) (hdr : ℕ) : Option Bool := do
  if (← mem[hdr + magicField]?) = 0 then return (← mem[hdr + 512 + magicField]?) = 0 else return false

/-- The loop of `initrd_init`. A memory of `n` bytes has room for less than `n` headers. -/
def initrdLoop (address : ℕ) : ℕ → List UInt8 → Ramdisk → ℕ → Option Ramdisk
  | 0, _, _, _ => none
  | fuel + 1, mem, t, hdr => do
    if (← atEnd mem hdr) = true then return t
    else
      guard ((← memStrcmp ustarMagic (mem.drop (hdr + magicField))) = 0)
      let (mem, t) ← processEntry address mem t hdr
      let size ← ustarReadField 12 0 (mem.drop (hdr + sizeField))
      initrdLoop address fuel mem t (hdr + advance size)

/-- `/initrd.tar`. -/
def initrdPath : CStr := .ofList [47, 105, 110, 105, 116, 114, 100, 46, 116, 97, 114] rfl

/-- `vfs_mount_vnode(vn, "/")`: the path has no component. -/
def mountRoot (root : Trie) (vn : ℕ) : Trie := .node root.comp (some vn) root.children

/-- `initrd_init()`: the nodes, and the mount points with the root node mounted at `/`. -/
def initrdInit (modules : List BootModule) (root : Trie) : Option (Ramdisk × Trie) := do
  let m ← modules.find? fun m => strcmp m.path.chars initrdPath.chars = 0
  let t ← initrdLoop m.address (m.mem.length + 1) m.mem emptyRamdisk 0
  return (t, mountRoot root rootNode)

end LykOS.Initrd
