import LykOS.Fs.Vfs.Tree

/-!
# File descriptors

The system calls of `syscalls/io.c` and `syscalls/socket.c` that take a file descriptor, over the resource
table of `sys/resource.c`. What they call behind the table is a parameter (`Backend`): the vnodes, the
sockets and the rest of the kernel are in a state of their own. A slot outside the table has no value, so a
call that reads or writes one has no result.
-/

namespace LykOS.Syscalls

open Option hiding bind

open Vfs (VnodeType)

def eok : UInt64 := 0
def ebadf : UInt64 := 10
def einval : UInt64 := 40
def enomem : UInt64 := 79

def resourceRead : UInt8 := 1
def resourceWrite : UInt8 := 2

/-- `sys_ret_t`. -/
structure SysRet where
  value : UInt64
  error : UInt64
  deriving DecidableEq, Repr

/-- `resource_t`. -/
structure Resource (V : Type) where
  node : Option V
  offset : UInt64
  flags : UInt8
  deriving DecidableEq, Repr

/-- `resource_table_t`: its `length` is an `int`. -/
structure Table (V : Type) where
  resources : List (Option (Resource V))
  length_lt : resources.length < 2 ^ 31

/-- The kernel behind the table, with vnodes `V`, sockets `S` and the state `σ`. The operations of
vnodes and sockets return an `int`. -/
structure Backend (V S σ : Type) where
  type : σ → V → VnodeType
  size : σ → V → UInt64
  mpData : σ → V → Option S
  ioctl : σ → V → ℤ → ℕ → ℤ × σ
  vfsRead : σ → V → UInt64 → ℕ → UInt64 → UInt64 × ℤ × σ
  vfsWrite : σ → V → UInt64 → ℕ → UInt64 → UInt64 × ℤ × σ
  bind : σ → S → ℕ → ℤ × σ
  connect : σ → S → ℕ → ℤ × σ
  listen : σ → S → ℤ × σ
  accept : σ → S → ℤ × S × σ
  /-- The vnode of `syscall_accept`, unless `heap_alloc` returns `NULL`. -/
  handle : σ → S → Option V × σ

/-- The current process: its resource table, and the kernel. -/
structure State (V σ : Type) where
  table : Table V
  kernel : σ

/-! ## The resource table -/

section

variable {V S σ : Type}

/-- `table->resources[id]`. -/
def Table.slot (t : Table V) (id : ℤ) : Option (Option (Resource V)) :=
  if id < 0 then none else t.resources[id.toNat]?

/-- `table->resources[id] = res`. -/
def Table.setSlot (t : Table V) (id : ℤ) (res : Option (Resource V)) : Option (Table V) :=
  if 0 ≤ id ∧ id < t.resources.length then
    some ⟨t.resources.set id.toNat res, by rw [List.length_set]; exact t.length_lt⟩
  else none

def resourceGet (t : Table V) (id : ℤ) : Option (Option (Resource V)) :=
  if id < 0 ∨ t.resources.length ≤ id then some none else t.slot id

/-- The loop of `resource_create` from slot `i` on, with `n` slots left; without a free one it returns
the length. -/
def resourceCreateLoop (t : Table V) (res : Resource V) : ℕ → ℕ → Option (ℕ × Table V)
  | 0, i => some (i, t)
  | n + 1, i => do
    match ← t.slot i with
    | none => return (i, ← t.setSlot i (some res))
    | some _ => resourceCreateLoop t res n (i + 1)

def resourceCreate (t : Table V) (node : V) (offset : UInt64) (flags : UInt8) :
    Option (ℕ × Table V) :=
  resourceCreateLoop t ⟨some node, offset, flags⟩ t.resources.length 0

/-! ## The calls -/

/-- A call returns `{0, error}` and changes nothing. -/
def fails (st : State V σ) (error : UInt64) : Option (SysRet × State V σ) :=
  some (⟨0, error⟩, st)

def syscallClose (st : State V σ) (fd : ℤ) : Option (SysRet × State V σ) := do
  match ← st.table.slot fd with
  | none => fails st ebadf
  | some _ => return (⟨0, eok⟩, { st with table := ← st.table.setSlot fd none })

/-- How the other calls begin: the resource of the descriptor with its node, or `EBADF`. Some of them
check the flags of the resource. -/
def withNode (st : State V σ) (fd : ℤ) (allowed : UInt8 → Prop) [DecidablePred allowed]
    (call : Resource V → V → Option (SysRet × State V σ)) : Option (SysRet × State V σ) := do
  match ← resourceGet st.table fd with
  | none => fails st ebadf
  | some res =>
    if ¬ allowed res.flags then fails st ebadf
    else match res.node with
      | none => fails st ebadf
      | some node => call res node

def syscallIoctl (B : Backend V S σ) (st : State V σ) (fd op : ℤ) (argp : ℕ) :
    Option (SysRet × State V σ) :=
  withNode st fd (fun _ => True) fun _ node =>
    let (ret, k) := B.ioctl st.kernel node op argp
    some (⟨0, UInt64.ofInt ret⟩, { st with kernel := k })

def syscallRead (B : Backend V S σ) (st : State V σ) (fd : ℤ) (buf : ℕ) (count : UInt64) :
    Option (SysRet × State V σ) :=
  withNode st fd (· &&& resourceRead ≠ 0) fun res node =>
    let (out, err, k) := B.vfsRead st.kernel node res.offset buf count
    some (⟨out, UInt64.ofInt err⟩, { st with kernel := k })

/-- The offset that `syscall_seek` asks for, unless `whence` is none of `SEEK_SET`, `SEEK_CUR` and
`SEEK_END`. -/
def seekOffset (cur size offset : UInt64) (whence : ℤ) : Option UInt64 :=
  match whence with
  | 0 => some offset
  | 1 => some (cur + offset)
  | 2 => some (size + offset)
  | _ => none

def syscallSeek (B : Backend V S σ) (st : State V σ) (fd : ℤ) (offset : UInt64) (whence : ℤ) :
    Option (SysRet × State V σ) :=
  if fd = 0 ∨ fd = 1 ∨ fd = 2 then some (⟨offset, eok⟩, st)
  else withNode st fd (fun _ => True) fun res node =>
    match seekOffset res.offset (B.size st.kernel node) offset whence with
    | none => fails st einval
    | some newOffset =>
      if newOffset > B.size st.kernel node then fails st einval
      else (st.table.setSlot fd (some { res with offset := newOffset })).map fun table =>
        (⟨newOffset, eok⟩, { st with table })

/-- `syscall_write`; the text that descriptors 1 and 2 log is left out. -/
def syscallWrite (B : Backend V S σ) (st : State V σ) (fd : ℤ) (buf : ℕ) (count : UInt64) :
    Option (SysRet × State V σ) :=
  if fd ≤ 2 then some (⟨count, eok⟩, st)
  else withNode st fd (· &&& resourceWrite ≠ 0) fun res node =>
    let (out, err, k) := B.vfsWrite st.kernel node res.offset buf count
    some (⟨out, UInt64.ofInt err⟩, { st with kernel := k })

/-- How the four socket calls begin: the socket of the descriptor, or an error. -/
def withSocket (B : Backend V S σ) (st : State V σ) (sockfd : ℤ)
    (call : S → Option (SysRet × State V σ)) : Option (SysRet × State V σ) :=
  withNode st sockfd (fun _ => True) fun _ node =>
    if B.type st.kernel node ≠ .socket then fails st ebadf
    else match B.mpData st.kernel node with
      | none => fails st einval
      | some socket => call socket

/-- What `bind`, `connect` and `listen` of the socket return is what the call returns. -/
def socketRet (st : State V σ) (r : ℤ × σ) : Option (SysRet × State V σ) :=
  some (⟨0, UInt64.ofInt r.1⟩, { st with kernel := r.2 })

def syscallBind (B : Backend V S σ) (st : State V σ) (sockfd : ℤ) (addr : ℕ) :
    Option (SysRet × State V σ) :=
  withSocket B st sockfd fun socket => socketRet st (B.bind st.kernel socket addr)

def syscallConnect (B : Backend V S σ) (st : State V σ) (sockfd : ℤ) (addr : ℕ) :
    Option (SysRet × State V σ) :=
  withSocket B st sockfd fun socket => socketRet st (B.connect st.kernel socket addr)

def syscallListen (B : Backend V S σ) (st : State V σ) (sockfd _backlog : ℤ) :
    Option (SysRet × State V σ) :=
  withSocket B st sockfd fun socket => socketRet st (B.listen st.kernel socket)

/-- `syscall_accept`; `resource_create` never returns a negative number. -/
def syscallAccept (B : Backend V S σ) (st : State V σ) (sockfd : ℤ) (_addr : ℕ) :
    Option (SysRet × State V σ) :=
  withSocket B st sockfd fun socket => do
    let (ret, newSocket, k) := B.accept st.kernel socket
    if ret ≠ 0 then return (⟨0, UInt64.ofInt ret⟩, { st with kernel := k })
    else
      let (handle, k) := B.handle k newSocket
      match handle with
      | none => return (⟨0, enomem⟩, { st with kernel := k })
      | some handle =>
        let (fd, table) ← resourceCreate st.table handle 0 (resourceRead ||| resourceWrite)
        return (⟨UInt64.ofNat fd, eok⟩, { table, kernel := k })

inductive Call
  | close (fd : ℤ)
  | ioctl (fd op : ℤ) (argp : ℕ)
  | read (fd : ℤ) (buf : ℕ) (count : UInt64)
  | seek (fd : ℤ) (offset : UInt64) (whence : ℤ)
  | write (fd : ℤ) (buf : ℕ) (count : UInt64)
  | bind (fd : ℤ) (addr : ℕ)
  | connect (fd : ℤ) (addr : ℕ)
  | listen (fd backlog : ℤ)
  | accept (fd : ℤ) (addr : ℕ)
  deriving DecidableEq, Repr

def Call.fd : Call → ℤ
  | .close fd | .ioctl fd _ _ | .read fd _ _ | .seek fd _ _ | .write fd _ _ | .bind fd _
  | .connect fd _ | .listen fd _ | .accept fd _ => fd

def syscall (B : Backend V S σ) (st : State V σ) : Call → Option (SysRet × State V σ)
  | .close fd => syscallClose st fd
  | .ioctl fd op argp => syscallIoctl B st fd op argp
  | .read fd buf count => syscallRead B st fd buf count
  | .seek fd offset whence => syscallSeek B st fd offset whence
  | .write fd buf count => syscallWrite B st fd buf count
  | .bind fd addr => syscallBind B st fd addr
  | .connect fd addr => syscallConnect B st fd addr
  | .listen fd backlog => syscallListen B st fd backlog
  | .accept fd addr => syscallAccept B st fd addr

/-! ## Slots -/

variable {B : Backend V S σ} {st : State V σ} {t : Table V} {fd : ℤ}

def Table.InRange (t : Table V) (fd : ℤ) : Prop := 0 ≤ fd ∧ fd < t.resources.length

def Table.Live (t : Table V) (fd : ℤ) : Prop := ∃ res, t.slot fd = some (some res)

theorem Table.slot_of_inRange (h : t.InRange fd) : ∃ r, t.slot fd = some r := by
  obtain ⟨h0, h1⟩ := h
  refine ⟨t.resources[fd.toNat], ?_⟩
  rw [Table.slot, if_neg (by omega), List.getElem?_eq_getElem]

theorem Table.slot_of_not_inRange (h : ¬ t.InRange fd) : t.slot fd = none := by
  unfold Table.InRange at h
  rw [Table.slot]
  split
  · rfl
  · exact List.getElem?_eq_none (by omega)

theorem Table.setSlot_of_inRange (h : t.InRange fd) (r : Option (Resource V)) :
    ∃ t', t.setSlot fd r = some t' ∧ t'.resources = t.resources.set fd.toNat r :=
  ⟨_, if_pos h, rfl⟩

theorem resourceGet_eq : resourceGet t fd = some ((t.slot fd).getD none) := by
  unfold resourceGet
  split
  · next h =>
    rw [Table.slot_of_not_inRange (by unfold Table.InRange; omega)]
    rfl
  · next h =>
    have hin : t.InRange fd := ⟨by omega, by omega⟩
    obtain ⟨r, hr⟩ := Table.slot_of_inRange hin
    rw [hr]
    rfl

theorem resourceGet_of_not_live (h : ¬ t.Live fd) : resourceGet t fd = some none := by
  rw [resourceGet_eq]
  cases hslot : t.slot fd with
  | none => rfl
  | some r =>
    cases r with
    | none => rfl
    | some res => exact absurd ⟨res, hslot⟩ h

theorem resourceGet_of_slot {res : Resource V} (h : t.slot fd = some (some res)) :
    resourceGet t fd = some (some res) := by
  rw [resourceGet_eq, h]
  rfl

/-- What `resource_create` returns: the first empty slot, which has the resource now, or the length of a
table that has no empty slot. -/
structure Created (t : Table V) (res : Resource V) (id : ℕ) (t' : Table V) : Prop where
  first : ∀ j : ℕ, j < id → t.Live j
  slot : t.slot id = some none ∧ t'.resources = t.resources.set id (some res) ∨
    id = t.resources.length ∧ t' = t

theorem resourceCreateLoop_spec {res : Resource V} : ∀ {n i : ℕ}, i + n = t.resources.length →
    (∀ j : ℕ, j < i → t.Live j) →
    ∃ id t', resourceCreateLoop t res n i = some (id, t') ∧ Created t res id t' := by
  intro n
  induction n with
  | zero =>
    intro i hi hfirst
    exact ⟨i, t, rfl, hfirst, Or.inr ⟨hi, rfl⟩⟩
  | succ n ih =>
    intro i hi hfirst
    have hin : t.InRange i := ⟨by omega, by omega⟩
    obtain ⟨r, hr⟩ := Table.slot_of_inRange hin
    rw [resourceCreateLoop, hr]
    cases r with
    | none =>
      obtain ⟨t', ht', hset⟩ := Table.setSlot_of_inRange hin (some res)
      refine ⟨i, t', ?_, hfirst, Or.inl ⟨hr, hset⟩⟩
      simp only [bind_eq_bind, Option.bind_some, ht', pure_def]
    | some r =>
      refine ih (by omega) fun j hj => ?_
      rcases Nat.lt_succ_iff_lt_or_eq.mp hj with hj | rfl
      · exact hfirst j hj
      · exact ⟨r, hr⟩

theorem resourceCreate_spec (t : Table V) (node : V) (offset : UInt64) (flags : UInt8) :
    ∃ id t', resourceCreate t node offset flags = some (id, t') ∧
      Created t ⟨some node, offset, flags⟩ id t' :=
  resourceCreateLoop_spec (Nat.zero_add _) fun _ h => absurd h (Nat.not_lt_zero _)

/-! ## Safety -/

/-- The call touches slots of the table only; with a descriptor that names no live resource it returns
`EBADF` and changes nothing; and `syscall_close` of a live one empties its slot and nothing else. -/
structure FdSafe (B : Backend V S σ) (st : State V σ) (c : Call) : Prop where
  in_table : syscall B st c ≠ none
  bad : ¬ st.table.Live c.fd → ∃ v, syscall B st c = some (⟨v, ebadf⟩, st)
  close : ∀ fd, c = .close fd → st.table.Live fd → ∃ table, syscall B st c =
    some (⟨0, eok⟩, { st with table }) ∧ table.resources = st.table.resources.set fd.toNat none

variable {allowed : UInt8 → Prop} {call : Resource V → V → Option (SysRet × State V σ)}

theorem withNode_bad [DecidablePred allowed] (h : ¬ st.table.Live fd) :
    withNode st fd allowed call = fails st ebadf := by
  rw [withNode, resourceGet_of_not_live h]
  rfl

theorem withNode_cases {P : Option (SysRet × State V σ) → Prop} [DecidablePred allowed]
    (hbad : P (fails st ebadf))
    (hcall : ∀ res node, st.table.slot fd = some (some res) → res.node = some node → P (call res node)) :
    P (withNode st fd allowed call) := by
  rw [withNode, resourceGet_eq, bind_eq_bind, Option.bind_some]
  split
  · exact hbad
  · next res hres =>
    have hslot : st.table.slot fd = some (some res) := by
      cases h : st.table.slot fd with
      | none =>
        rw [h] at hres
        cases hres
      | some r =>
        rw [h] at hres
        exact congrArg some hres
    split
    · exact hbad
    · split
      · exact hbad
      · next node hnode => exact hcall res node hslot hnode

/-- The socket of a descriptor. -/
def SocketOf (B : Backend V S σ) (st : State V σ) (fd : ℤ) (s : S) : Prop :=
  ∃ res node, st.table.slot fd = some (some res) ∧ res.node = some node ∧ B.mpData st.kernel node = some s

theorem withSocket_cases {P : Option (SysRet × State V σ) → Prop}
    {call : S → Option (SysRet × State V σ)} (hbad : P (fails st ebadf)) (hinval : P (fails st einval))
    (hcall : ∀ s, SocketOf B st fd s → P (call s)) : P (withSocket B st fd call) := by
  refine withNode_cases hbad fun res node hslot hnode => ?_
  split
  · exact hbad
  · split
    · exact hinval
    · next s hs => exact hcall s ⟨res, node, hslot, hnode, hs⟩

theorem Table.inRange_of_slot {r : Option (Resource V)} (h : t.slot fd = some r) : t.InRange fd := by
  by_contra hn
  rw [Table.slot_of_not_inRange hn] at h
  cases h

theorem withNode_ne_none [DecidablePred allowed]
    (hcall : ∀ res node, st.table.InRange fd → call res node ≠ none) :
    withNode st fd allowed call ≠ none :=
  withNode_cases (P := (· ≠ none)) (some_ne_none _) fun res node hslot _ =>
    hcall res node (Table.inRange_of_slot hslot)

theorem withSocket_ne_none {call : S → Option (SysRet × State V σ)} (hcall : ∀ s, call s ≠ none) :
    withSocket B st fd call ≠ none :=
  withSocket_cases (P := (· ≠ none)) (some_ne_none _) (some_ne_none _) fun s _ => hcall s

theorem syscallSeek_ne_none {offset : UInt64} {whence : ℤ} :
    syscallSeek B st fd offset whence ≠ none := by
  unfold syscallSeek
  split
  · exact some_ne_none _
  · refine withNode_ne_none fun res node hin => ?_
    split
    · exact some_ne_none _
    · next newOffset _ =>
      split
      · exact some_ne_none _
      · obtain ⟨t, ht, -⟩ := Table.setSlot_of_inRange hin (some { res with offset := newOffset })
        rw [ht]
        exact some_ne_none _

theorem syscallAccept_ne_none (addr : ℕ) : syscallAccept B st fd addr ≠ none := by
  refine withSocket_ne_none fun s => ?_
  dsimp only
  split
  · exact some_ne_none _
  · split
    · exact some_ne_none _
    · next handle _ =>
      obtain ⟨id, t', hr, -⟩ := resourceCreate_spec st.table handle 0 (resourceRead ||| resourceWrite)
      rw [hr]
      exact some_ne_none _

theorem syscallClose_safe (h : st.table.InRange fd) : FdSafe B st (.close fd) := by
  obtain ⟨r, hr⟩ := Table.slot_of_inRange h
  obtain ⟨t, ht, htable⟩ := Table.setSlot_of_inRange h none
  cases r with
  | none =>
    have heq : syscall B st (.close fd) = fails st ebadf := by
      simp only [syscall, syscallClose, hr, bind_eq_bind, Option.bind_some]
    refine ⟨by rw [heq]; exact some_ne_none _, fun _ => ⟨0, heq⟩, ?_⟩
    rintro _ ⟨⟩ ⟨res, hres⟩
    rw [hr] at hres
    cases hres
  | some res =>
    have heq : syscall B st (.close fd) = some (⟨0, eok⟩, { st with table := t }) := by
      simp only [syscall, syscallClose, hr, ht, bind_eq_bind, Option.bind_some, pure_def]
    refine ⟨by rw [heq]; exact some_ne_none _, fun hn => absurd ⟨res, hr⟩ hn, ?_⟩
    rintro _ ⟨⟩ -
    exact ⟨t, heq, htable⟩

/-- The calls that are about the table for every descriptor, and `syscall_write` and `syscall_seek`
with one above 2. -/
def Call.UsesTable : Call → Prop
  | .seek fd _ _ | .write fd _ _ => 2 < fd
  | _ => True

theorem fdSafe_of_not_close {c : Call} (hc : c.UsesTable) (hclose : ∀ fd, c ≠ .close fd) :
    FdSafe B st c := by
  have hsafe : syscall B st c ≠ none ∧
      (¬ st.table.Live c.fd → syscall B st c = fails st ebadf) := by
    cases c with
    | close fd => exact absurd rfl (hclose fd)
    | ioctl fd op argp =>
      simp only [syscall, syscallIoctl]
      exact ⟨withNode_ne_none fun _ _ _ => some_ne_none _, withNode_bad⟩
    | read fd buf count =>
      simp only [syscall, syscallRead]
      exact ⟨withNode_ne_none fun _ _ _ => some_ne_none _, withNode_bad⟩
    | seek fd offset whence =>
      refine ⟨syscallSeek_ne_none, fun h => ?_⟩
      have hfd : ¬ (fd = 0 ∨ fd = 1 ∨ fd = 2) := by
        unfold Call.UsesTable at hc
        omega
      simp only [syscall, syscallSeek, if_neg hfd]
      exact withNode_bad h
    | write fd buf count =>
      have hfd : ¬ fd ≤ 2 := not_le.mpr hc
      simp only [syscall, syscallWrite, if_neg hfd]
      exact ⟨withNode_ne_none fun _ _ _ => some_ne_none _, withNode_bad⟩
    | bind fd addr =>
      simp only [syscall, syscallBind]
      exact ⟨withSocket_ne_none fun _ => some_ne_none _, withNode_bad⟩
    | connect fd addr =>
      simp only [syscall, syscallConnect]
      exact ⟨withSocket_ne_none fun _ => some_ne_none _, withNode_bad⟩
    | listen fd backlog =>
      simp only [syscall, syscallListen]
      exact ⟨withSocket_ne_none fun _ => some_ne_none _, withNode_bad⟩
    | accept fd addr =>
      refine ⟨syscallAccept_ne_none addr, fun h => ?_⟩
      simp only [syscall, syscallAccept]
      exact withNode_bad h
  exact ⟨hsafe.1, fun h => ⟨0, hsafe.2 h⟩, fun fd e => absurd e (hclose fd)⟩

/-- A call is safe exactly if it is not a `syscall_close` of a descriptor outside the table. -/
theorem fd_safe_iff (B : Backend V S σ) (st : State V σ) {c : Call} (hc : c.UsesTable) :
    FdSafe B st c ↔ ∀ fd, c = .close fd → st.table.InRange fd := by
  constructor
  · rintro h fd rfl
    by_contra hn
    refine h.in_table ?_
    simp only [syscall, syscallClose, Table.slot_of_not_inRange hn, bind_eq_bind, bind_none]
  · intro h
    by_cases hclose : ∃ fd, c = .close fd
    · obtain ⟨fd, rfl⟩ := hclose
      exact syscallClose_safe (h fd rfl)
    · exact fdSafe_of_not_close hc fun fd e => hclose ⟨fd, e⟩

end

def oneFile : Backend Unit Unit Unit where
  type _ _ := .reg
  size _ _ := 8
  mpData _ _ := none
  ioctl k _ _ _ := (0, k)
  vfsRead k _ _ _ count := (count, 0, k)
  vfsWrite k _ _ _ count := (count, 0, k)
  bind k _ _ := (0, k)
  connect k _ _ := (0, k)
  listen k _ := (0, k)
  accept k s := (0, s, k)
  handle k _ := (some (), k)

def twoSlots : State Unit Unit := ⟨⟨[none, some ⟨some (), 0, 3⟩], by decide⟩, ()⟩

/-- `syscall_close(-1)` leaves the table. -/
theorem close_outside_table :
    syscall oneFile twoSlots (.close (-1)) = none ∧ ¬ FdSafe oneFile twoSlots (.close (-1)) := by
  have hnone : syscall oneFile twoSlots (.close (-1)) = none := rfl
  exact ⟨hnone, fun h => h.in_table hnone⟩

theorem fd_safe_iff_sample :
    (Call.close 1).UsesTable ∧ FdSafe oneFile twoSlots (.close 1) ∧
      (Call.seek 5 0 0).UsesTable ∧ FdSafe oneFile twoSlots (.seek 5 0 0) := by
  have hseek : (Call.seek 5 0 0).UsesTable := by unfold Call.UsesTable; decide
  refine ⟨trivial, (fd_safe_iff oneFile twoSlots (c := .close 1) trivial).mpr ?_, hseek,
    (fd_safe_iff oneFile twoSlots hseek).mpr fun fd e => by cases e⟩
  rintro _ ⟨⟩
  exact ⟨by decide, by decide⟩

end LykOS.Syscalls
