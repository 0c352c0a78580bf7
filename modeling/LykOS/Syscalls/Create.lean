import LykOS.Syscalls.Fd

/-!
# New descriptors

`resource_create` puts a resource into the first empty slot of the table and returns the index of
the slot (`resourceCreate_spec`). If there is none it returns the length of the table, which is not
negative: `syscall_socket` and `syscall_accept` test for a negative value, `syscall_open` for none
at all, so all three return a descriptor that has no slot. Descriptors are right exactly while there
is an empty slot (`descriptors_right_iff`).
-/

namespace LykOS.Syscalls

def emfile : UInt64 := 60

def readWrite : UInt8 := resourceRead ||| resourceWrite

/-- What `syscall_open` and `syscall_socket` call, with socket families `F`. An `int` is returned by
`vfs_open`, and a vnode that may be `NULL`. -/
structure Opener (V S F σ : Type) where
  vfsOpen : σ → ℕ → ℤ × Option V × σ
  vfsOpen_int : ∀ k path, -2 ^ 31 ≤ (vfsOpen k path).1 ∧ (vfsOpen k path).1 < 2 ^ 31
  socketGetFamily : σ → ℤ → Option F
  /-- `heap_alloc(sizeof(vnode_t))`. -/
  heapAlloc : σ → Option V × σ
  heapFree : σ → V → σ
  createSocket : σ → F → ℤ → ℤ → Option S × σ
  /-- The handle becomes a vnode for the socket. -/
  setSocket : σ → V → S → σ

section

variable {V S F σ : Type}

/-- `resource_create`, with a node that may be `NULL`. -/
def resourceCreateAny (t : Table V) (node : Option V) (offset : UInt64) (flags : UInt8) :
    Option (ℕ × Table V) :=
  resourceCreateLoop t ⟨node, offset, flags⟩ t.resources.length 0

def syscallOpen (O : Opener V S F σ) (st : State V σ) (path : ℕ) (_flags _mode : ℤ) :
    Option (SysRet × State V σ) := do
  let (ret, node, k) := O.vfsOpen st.kernel path
  if ret ≠ 0 then return (⟨0, UInt64.ofInt ret⟩, { st with kernel := k })
  else
    let (fd, table) ← resourceCreateAny st.table node 0 readWrite
    return (⟨UInt64.ofNat fd, eok⟩, { table, kernel := k })

def syscallSocket (O : Opener V S F σ) (st : State V σ) (domain type protocol : ℤ) :
    Option (SysRet × State V σ) :=
  match O.socketGetFamily st.kernel domain with
  | none => fails st einval
  | some family =>
    let (handle, k) := O.heapAlloc st.kernel
    match handle with
    | none => fails { st with kernel := k } enomem
    | some handle =>
      let (socket, k) := O.createSocket k family type protocol
      match socket with
      | none => fails { st with kernel := O.heapFree k handle } enomem
      | some socket => do
        let k := O.setSocket k handle socket
        let (fd, table) ← resourceCreate st.table handle 0 readWrite
        if (fd : ℤ) < 0 then fails { table, kernel := O.heapFree k handle } emfile
        else return (⟨UInt64.ofNat fd, eok⟩, { table, kernel := k })

/-! ## The first empty slot -/

variable {t : Table V} {res : Resource V}

theorem resourceCreateAny_spec (t : Table V) (node : Option V) (offset : UInt64) (flags : UInt8) :
    ∃ id t', resourceCreateAny t node offset flags = some (id, t') ∧
      Created t ⟨node, offset, flags⟩ id t' :=
  resourceCreateLoop_spec (Nat.zero_add _) fun _ h => absurd h (Nat.not_lt_zero _)

def Table.HasEmpty (t : Table V) : Prop := ∃ id, t.slot id = some none

theorem Table.slot_natCast (t : Table V) (i : ℕ) : t.slot i = t.resources[i]? := by
  unfold Table.slot
  rw [if_neg (by omega), Int.toNat_natCast]

variable {st : State V σ} {t' : Table V} {id : ℕ}

theorem Table.slot_set {r : Option (Resource V)} (h : t'.resources = t.resources.set id r) (j : ℤ)
    (hj : j ≠ id) : t'.slot j = t.slot j := by
  unfold Table.slot
  split
  · rfl
  · rw [h, List.getElem?_set_ne (by omega)]

theorem Created.slot_of_hasEmpty (h : Created t res id t') (he : t.HasEmpty) :
    t.slot id = some none ∧ t'.slot id = some (some res) ∧ id < 2 ^ 31 := by
  rcases h.slot with ⟨hslot, hset⟩ | ⟨rfl, -⟩
  · rw [Table.slot_natCast] at hslot ⊢
    have hlt := (List.getElem?_eq_some_iff.mp hslot).1
    refine ⟨hslot, ?_, hlt.trans t.length_lt⟩
    rw [Table.slot_natCast, hset, List.getElem?_set_self hlt]
  · -- All slots in front of the end are live, so none is empty.
    obtain ⟨j, hj⟩ := he
    have hin := Table.inRange_of_slot hj
    obtain ⟨i, rfl⟩ := Int.eq_ofNat_of_zero_le hin.1
    obtain ⟨r, hr⟩ := h.first i (by have := hin.2; omega)
    cases hj.symm.trans hr

/-! ## Right descriptors -/

/-- `resource_create` returns the first empty slot, which has the resource now while the other slots
are as before, or, if the table is full, a negative value, and the table is as before. -/
def CreateRight (t : Table V) (res : Resource V) (r : Option (ℕ × Table V)) : Prop :=
  ∃ (id : ℕ) (t' : Table V), r = some (id, t') ∧
    ((∀ j : ℕ, j < id → t.Live j) ∧ t.slot id = some none ∧ t'.slot id = some (some res) ∧
        (∀ j : ℤ, j ≠ id → t'.slot j = t.slot j) ∨
      ¬ t.HasEmpty ∧ (id : ℤ) < 0 ∧ t' = t)

/-- A call that returns no error returns a slot that was empty and has the new resource now. -/
def HandsOut (st : State V σ) (new : Option V → Prop) (r : Option (SysRet × State V σ)) : Prop :=
  ∃ ret st', r = some (ret, st') ∧ (ret.error = eok → ∃ node, new node ∧
    st.table.slot ret.value.toNat = some none ∧
      st'.table.slot ret.value.toNat = some (some ⟨node, 0, readWrite⟩))

/-- The vnode for the socket that is accepted from the one of the descriptor. -/
def AcceptedNode (B : Backend V S σ) (st : State V σ) (sockfd : ℤ) (node : Option V) : Prop :=
  ∃ socket, SocketOf B st sockfd socket ∧
    (B.handle (B.accept st.kernel socket).2.2 (B.accept st.kernel socket).2.1).1 = node

/-- `resource_create` and the calls that use it are right about descriptors. -/
structure DescriptorsRight (B : Backend V S σ) (O : Opener V S F σ) (st : State V σ) (node : Option V)
    (offset : UInt64) (flags : UInt8) : Prop where
  create : CreateRight st.table ⟨node, offset, flags⟩ (resourceCreateAny st.table node offset flags)
  opens : ∀ path flags mode, HandsOut st (fun node => (O.vfsOpen st.kernel path).2.1 = node)
    (syscallOpen O st path flags mode)
  sockets : ∀ domain type protocol, HandsOut st (fun node => (O.heapAlloc st.kernel).1 = node)
    (syscallSocket O st domain type protocol)
  accepts : ∀ sockfd addr, HandsOut st (AcceptedNode B st sockfd) (syscallAccept B st sockfd addr)

theorem createRight_iff (t : Table V) (node : Option V) (offset : UInt64) (flags : UInt8) :
    CreateRight t ⟨node, offset, flags⟩ (resourceCreateAny t node offset flags) ↔ t.HasEmpty := by
  obtain ⟨id, t', heq, hc⟩ := resourceCreateAny_spec t node offset flags
  constructor
  · rintro ⟨id', t'', h, ⟨-, hslot, -⟩ | ⟨-, hneg, -⟩⟩
    · exact ⟨id', hslot⟩
    · exact absurd hneg (by omega)
  · intro he
    obtain ⟨hempty, hslot, -⟩ := hc.slot_of_hasEmpty he
    refine ⟨id, t', heq, Or.inl ⟨hc.first, hempty, hslot, ?_⟩⟩
    rcases hc.slot with ⟨-, hset⟩ | ⟨-, rfl⟩
    · exact Table.slot_set hset
    · exact fun _ _ => rfl

theorem handsOut_of_error {st' : State V σ} {new : Option V → Prop} {value error : UInt64}
    (h : error ≠ eok) : HandsOut st new (some (⟨value, error⟩, st')) :=
  ⟨_, _, rfl, fun he => absurd he h⟩

theorem handsOut_of_created {new : Option V → Prop} {node : Option V} {k : σ}
    (hc : Created st.table ⟨node, 0, readWrite⟩ id t') (hnew : new node) (he : st.table.HasEmpty) :
    HandsOut st new (some (⟨UInt64.ofNat id, eok⟩, { table := t', kernel := k })) := by
  obtain ⟨hempty, hslot, hlt⟩ := hc.slot_of_hasEmpty he
  have hid : (UInt64.ofNat id).toNat = id := by
    rw [UInt64.toNat_ofNat']
    omega
  refine ⟨_, _, rfl, fun _ => ⟨node, hnew, ?_⟩⟩
  rw [hid]
  exact ⟨hempty, hslot⟩

theorem ofInt_ne_eok {ret : ℤ} (h : ret ≠ 0) (hlo : -2 ^ 63 ≤ ret) (hhi : ret < 2 ^ 63) :
    UInt64.ofInt ret ≠ eok := by
  intro he
  have hnat := congrArg UInt64.toNat he
  rw [UInt64.ofInt, UInt64.toNat_ofNat', eok, UInt64.toNat_zero] at hnat
  omega

theorem syscallOpen_handsOut (O : Opener V S F σ) (he : st.table.HasEmpty) (path : ℕ)
    (flags mode : ℤ) : HandsOut st (fun node => (O.vfsOpen st.kernel path).2.1 = node)
      (syscallOpen O st path flags mode) := by
  have hint := O.vfsOpen_int st.kernel path
  unfold syscallOpen
  dsimp only
  split
  case isTrue h =>
    exact handsOut_of_error (ofInt_ne_eok h (le_trans (by decide) hint.1) (lt_trans hint.2 (by decide)))
  case isFalse =>
    obtain ⟨id, t', heq, hc⟩ := resourceCreateAny_spec st.table (O.vfsOpen st.kernel path).2.1 0 readWrite
    rw [heq]
    exact handsOut_of_created hc rfl he

theorem syscallSocket_handsOut (O : Opener V S F σ) (he : st.table.HasEmpty)
    (domain type protocol : ℤ) : HandsOut st (fun node => (O.heapAlloc st.kernel).1 = node)
      (syscallSocket O st domain type protocol) := by
  unfold syscallSocket
  split
  · exact handsOut_of_error (by decide)
  · dsimp only
    split
    · exact handsOut_of_error (by decide)
    · next handle hhandle =>
      split
      · exact handsOut_of_error (by decide)
      · obtain ⟨id, t', heq, hc⟩ := resourceCreate_spec st.table handle 0 readWrite
        rw [heq, Option.bind_eq_bind, Option.bind_some, if_neg (by omega)]
        exact handsOut_of_created hc hhandle he

theorem syscallAccept_handsOut {B : Backend V S σ}
    (hint : ∀ k socket, -2 ^ 63 ≤ (B.accept k socket).1 ∧ (B.accept k socket).1 < 2 ^ 63)
    (he : st.table.HasEmpty) (sockfd : ℤ) (addr : ℕ) :
    HandsOut st (AcceptedNode B st sockfd) (syscallAccept B st sockfd addr) := by
  refine withSocket_cases (P := HandsOut st _) (handsOut_of_error (by decide))
    (handsOut_of_error (by decide)) fun socket hsocket => ?_
  obtain ⟨hlo, hhi⟩ := hint st.kernel socket
  dsimp only
  split
  · next h => exact handsOut_of_error (ofInt_ne_eok h hlo hhi)
  · split
    · exact handsOut_of_error (by decide)
    · next handle hhandle =>
      obtain ⟨id, t', heq, hc⟩ := resourceCreate_spec st.table handle 0 readWrite
      unfold readWrite at heq
      rw [heq]
      exact handsOut_of_created hc ⟨socket, hsocket, hhandle⟩ he

/-- Descriptors are right exactly while the table has an empty slot. -/
theorem descriptors_right_iff (B : Backend V S σ) (O : Opener V S F σ)
    (hint : ∀ k socket, -2 ^ 63 ≤ (B.accept k socket).1 ∧ (B.accept k socket).1 < 2 ^ 63)
    (st : State V σ) (node : Option V) (offset : UInt64) (flags : UInt8) :
    DescriptorsRight B O st node offset flags ↔ st.table.HasEmpty := by
  constructor
  · intro h
    exact (createRight_iff st.table node offset flags).mp h.create
  · intro he
    exact ⟨(createRight_iff st.table node offset flags).mpr he, syscallOpen_handsOut O he,
      syscallSocket_handsOut O he, syscallAccept_handsOut hint he⟩

end

def oneOpener : Opener Unit Unit Unit Unit where
  vfsOpen k _ := (0, some (), k)
  vfsOpen_int _ _ := ⟨show -2 ^ 31 ≤ (0 : ℤ) by decide, show (0 : ℤ) < 2 ^ 31 by decide⟩
  socketGetFamily _ _ := some ()
  heapAlloc k := (some (), k)
  heapFree k _ := k
  createSocket k _ _ _ := (some (), k)
  setSocket k _ _ := k

theorem descriptors_right_iff_sample :
    (∀ k socket, -2 ^ 63 ≤ (oneFile.accept k socket).1 ∧ (oneFile.accept k socket).1 < 2 ^ 63) ∧
      DescriptorsRight oneFile oneOpener twoSlots (some ()) 0 readWrite := by
  have hint : ∀ k socket, -2 ^ 63 ≤ (oneFile.accept k socket).1 ∧ (oneFile.accept k socket).1 < 2 ^ 63 :=
    fun _ _ => ⟨show -2 ^ 63 ≤ (0 : ℤ) by decide, show (0 : ℤ) < 2 ^ 63 by decide⟩
  exact ⟨hint, (descriptors_right_iff oneFile oneOpener hint twoSlots (some ()) 0 readWrite).mpr ⟨0, rfl⟩⟩

def oneSlot : State Unit Unit := ⟨⟨[some ⟨some (), 0, 3⟩], by decide⟩, ()⟩

/-- With a full table the calls return a descriptor that has no slot, and `EOK`. -/
theorem descriptors_of_full :
    (∃ st, syscallOpen oneOpener oneSlot 0 0 0 = some (⟨1, eok⟩, st) ∧ st.table.slot 1 = none) ∧
      (∃ st, syscallSocket oneOpener oneSlot 0 0 0 = some (⟨1, eok⟩, st) ∧ st.table.slot 1 = none) ∧
      ¬ DescriptorsRight oneFile oneOpener oneSlot (some ()) 0 readWrite := by
  refine ⟨⟨oneSlot, rfl, rfl⟩, ⟨oneSlot, rfl, rfl⟩, fun h => ?_⟩
  obtain ⟨ret, st', hret, hslot⟩ := h.opens 0 0 0
  have hopen : syscallOpen oneOpener oneSlot 0 0 0 = some (⟨1, eok⟩, oneSlot) := rfl
  cases hopen.symm.trans hret
  obtain ⟨node, -, hempty, -⟩ := hslot rfl
  cases hempty

end LykOS.Syscalls
