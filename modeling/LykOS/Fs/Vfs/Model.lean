import LykOS.Arch.Types

/-!
# Reading and writing a vnode

`vfs_read` and `vfs_write` of `fs/vfs.c`. Vnodes are named by numbers. The page cache of a vnode is
the finite map that its red-black tree refines (`LykOS.Lib.Rbtree.Map`), so `rb_find` is a lookup
and `rb_insert` adds a key that is absent. Memory is seen through the higher-half window, by frame
and offset. `heap_alloc` and `pmm_alloc` do not run out; the frames that `pmm_alloc(0)` hands out
are a parameter, and they come with whatever bytes they hold.
-/

namespace LykOS.Vfs

/-- The part of `vnode_t` that `vfs_read` uses. The operation `read` returns its status and the bytes for
the buffer. -/
structure Vnode where
  read : ℕ → ℕ → ℤ × List UInt8
  cached : Bool
  length_read : ∀ offset count, (read offset count).2.length ≤ count

/-- The vnodes, and the frames that `pmm_alloc(0)` returns one after the other. -/
structure Machine where
  vnodes : ℕ → Vnode
  frames : ℕ → ℕ
  injective : Function.Injective frames
  aligned : ∀ n, frames n % archPageGran = 0

/-- Memory by frame and offset, the page caches by vnode and page offset, and the number of frames
that are handed out. -/
structure Store where
  mem : ℕ → ℕ → UInt8
  pageCache : ℕ → ℕ → Option ℕ
  taken : ℕ

/-- `memcpy(buffer + start, data + src, n)`. -/
def memcpy (buffer : ℕ → UInt8) (start : ℕ) (data : ℕ → UInt8) (src n : ℕ) : ℕ → UInt8 := fun k =>
  if start ≤ k ∧ k < start + n then data (src + (k - start)) else buffer k

/-- The buffer after a backend put `bytes` into it. -/
def fill (buffer : ℕ → UInt8) (bytes : List UInt8) : ℕ → UInt8 := fun k =>
  bytes[k]?.getD (buffer k)

/-- `rb_insert` on a page cache: a key that is there keeps its page. -/
def Store.addPage (s : Store) (vn pageOff frame : ℕ) : Store :=
  match s.pageCache vn pageOff with
  | some _ => s
  | none =>
    let pages := Function.update (s.pageCache vn) pageOff (some frame)
    { s with pageCache := Function.update s.pageCache vn pages }

def Store.setMem (s : Store) (frame : ℕ) (bytes : ℕ → UInt8) : Store :=
  { s with mem := Function.update s.mem frame bytes }

/-- `pmm_alloc(0)`. -/
def Store.alloc (s : Store) : Store := { s with taken := s.taken + 1 }

/-- The page of the cache that `vfs_read` copies from, read from the backend if it is not there. The
frame of a failed read is not freed. -/
def cachePage (M : Machine) (s : Store) (vn pageOff : ℕ) : Except ℤ ℕ × Store :=
  match s.pageCache vn pageOff with
  | some frame => (.ok frame, s)
  | none =>
    let frame := M.frames s.taken
    let (st, bytes) := (M.vnodes vn).read pageOff archPageGran
    let s := s.alloc.setMem frame (fill (s.mem frame) bytes)
    if st ≠ eok then (.error st, s) else (.ok frame, s.addPage vn pageOff frame)

/-- The status of `vfs_read`, the value left in `*out`, the buffer and the store. -/
structure ReadResult where
  status : ℤ
  out : Option ℕ
  buffer : ℕ → UInt8
  store : Store

/-- The loop of `vfs_read` on a cached vnode. -/
def readLoop (M : Machine) (vn offset count : ℕ) : ℕ → ℕ → (ℕ → UInt8) → Store → Option ReadResult
  | 0, _, _, _ => none
  | n + 1, done, buffer, s =>
    if done < count then
      let offInPage := u64 (offset + done) % archPageGran
      let pageOff := u64 (offset + done) - offInPage
      let toCopy := min (archPageGran - offInPage) (count - done)
      match cachePage M s vn pageOff with
      | (.error st, s) => some ⟨st, none, buffer, s⟩
      | (.ok frame, s) =>
        readLoop M vn offset count n (done + toCopy)
          (memcpy buffer done (s.mem frame) offInPage toCopy) s
    else some ⟨eok, some done, buffer, s⟩

/-- `vfs_read(vn, offset, buffer, count, &out)`. -/
def vfsRead (M : Machine) (s : Store) (vn offset : ℕ) (buffer : ℕ → UInt8) (count : ℕ) :
    Option ReadResult :=
  let v := M.vnodes vn
  if v.cached then readLoop M vn offset count (count + 1) 0 buffer s
  else
    let (st, bytes) := v.read offset count
    some ⟨st, some bytes.length, fill buffer bytes, s⟩

/-! ## Writing -/

/-- The frames that `pmm_alloc(0)` returns one after the other. -/
structure Frames where
  frames : ℕ → ℕ
  injective : Function.Injective frames
  aligned : ∀ n, frames n % archPageGran = 0

/-- A vnode whose backend is in a state of `β`, and the frames for its page cache. The operation `write`
returns its status and the number of bytes written. -/
structure Volume (β : Type) extends Frames where
  vnode : β → Vnode
  write : β → ℕ → (ℕ → UInt8) → ℕ → ℤ × ℕ × β

def Volume.machine {β : Type} (V : Volume β) (b : β) : Machine where
  vnodes _ := V.vnode b
  frames := V.frames
  injective := V.injective
  aligned := V.aligned

/-- The page of the cache that `vfs_write` copies to. A new one is read from the backend, with its
status ignored, unless the whole page is written. -/
def writePage {β : Type} (V : Volume β) (b : β) (s : Store) (pageOff : ℕ) (whole : Bool) : ℕ × Store :=
  match s.pageCache 0 pageOff with
  | some frame => (frame, s)
  | none =>
    let frame := V.frames s.taken
    let bytes := if whole then s.mem frame
      else fill (s.mem frame) ((V.vnode b).read pageOff archPageGran).2
    (frame, (s.alloc.setMem frame bytes).addPage 0 pageOff frame)

/-- The status of `vfs_write`, the value left in `*out`, the backend and the store. -/
structure WriteResult (β : Type) where
  status : ℤ
  out : Option ℕ
  backend : β
  store : Store

/-- The loop of `vfs_write` on a cached vnode. -/
def writeLoop {β : Type} (V : Volume β) (offset : ℕ) (buffer : ℕ → UInt8) (count : ℕ) :
    ℕ → ℕ → β → Store → Option (WriteResult β)
  | 0, _, _, _ => none
  | n + 1, done, b, s =>
    if done < count then
      let offInPage := u64 (offset + done) % archPageGran
      let pageOff := u64 (offset + done) - offInPage
      let toCopy := min (archPageGran - offInPage) (count - done)
      let (frame, s) := writePage V b s pageOff (offInPage = 0 ∧ toCopy = archPageGran)
      let s := s.setMem frame (memcpy (s.mem frame) offInPage buffer done toCopy)
      let (st, _, b) := V.write b (u64 (offset + done)) (fun k => buffer (done + k)) toCopy
      if st ≠ eok then some ⟨st, none, b, s⟩
      else writeLoop V offset buffer count n (done + toCopy) b s
    else some ⟨eok, some done, b, s⟩

/-- `vfs_write(vn, offset, buffer, count, &out)`. -/
def vfsWrite {β : Type} (V : Volume β) (b : β) (s : Store) (offset : ℕ) (buffer : ℕ → UInt8)
    (count : ℕ) : Option (WriteResult β) :=
  if (V.vnode b).cached then writeLoop V offset buffer count (count + 1) 0 b s
  else
    let (st, out, b) := V.write b offset buffer count
    some ⟨st, some out, b, s⟩

/-! ## Files -/

structure File where
  size : ℕ
  bytes : ℕ → UInt8

def File.byte? (f : File) (x : ℕ) : Option UInt8 := if x < f.size then some (f.bytes x) else none

/-- Reading a file ends at its end, which is no error. -/
def File.read (f : File) (offset count : ℕ) : ℤ × List UInt8 :=
  (eok, (List.range (min count (f.size - offset))).map fun k => f.bytes (offset + k))

theorem File.length_read (f : File) (offset count : ℕ) :
    (f.read offset count).2.length ≤ count := by
  unfold File.read
  rw [List.length_map, List.length_range]
  exact Nat.min_le_left _ _

def File.vnode (f : File) (cached : Bool) : Vnode := ⟨f.read, cached, f.length_read⟩

/-- Writing past the end leaves a hole, with the bytes that `f` has there. -/
def File.write (f : File) (offset : ℕ) (buffer : ℕ → UInt8) (count : ℕ) : File where
  size := if count = 0 then f.size else max f.size (offset + count)
  bytes := memcpy f.bytes offset buffer 0 count

/-- A file as backend: its operations succeed, and transfer all there is and all that is asked. -/
def fileVolume (F : Frames) (cached : Bool) : Volume File where
  toFrames := F
  vnode f := f.vnode cached
  write f offset buffer count := (eok, count, f.write offset buffer count)

end LykOS.Vfs
