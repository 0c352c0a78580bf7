import LykOS.Fs.Vfs.Create
import Mathlib.Data.List.Nodup

/-!
# Addresses of unix sockets

`bind` of `sys/sockets/unix.c` creates a node for the address, and relies on `vfs_create` to fail where
there is one. It never does, so a second socket is bound to an address as readily as the first. Names and
addresses are unique exactly in the runs that create and bind new names only (`names_unique_iff`).
-/

namespace LykOS.Sockets

open Vfs Tmpfs Run

def eaddrinuse : ℤ := 3

/-- `socket_state_t`. -/
inductive SocketState
  | new
  | bound
  | listening
  | connecting
  | connected
  | closed
  deriving DecidableEq, Repr

def SocketState.toNat : SocketState → ℕ
  | .new => 0
  | .bound => 1
  | .listening => 2
  | .connecting => 3
  | .connected => 4
  | .closed => 5

/-- The part of `socket_unix_t` that `bind` uses. -/
structure Socket where
  state : SocketState
  boundVnode : Option ℕ
  deriving DecidableEq, Repr

/-- The tmpfs nodes, the sockets, and the socket in the field `mp_data` of each vnode. -/
structure SockWorld where
  nodes : Nodes
  sockets : ℕ → Socket
  mpData : ℕ → Option ℕ

def bind (root : ℕ) (w : SockWorld) (self : ℕ) (addr : CStr) : Option (ℤ × SockWorld) :=
  if SocketState.bound.toNat ≤ (w.sockets self).state.toNat then some (-einval, w)
  else do
    let (st, addrNode, nodes) ← vfsCreate root w.nodes addr .socket
    if st < 0 then return (-eaddrinuse, { w with nodes := nodes })
    else
      let vn ← addrNode
      return (eok,
        { nodes := nodes
          sockets := Function.update w.sockets self ⟨.bound, some vn⟩
          mpData := Function.update w.mpData vn (some self) })

inductive SockOp
  | create (path : CStr) (t : VnodeType)
  | bind (self : ℕ) (addr : CStr)

/-- One call: its status, and the world after it. -/
def sockCall (root : ℕ) (w : SockWorld) : SockOp → Option (ℤ × SockWorld)
  | .create path t => (vfsCreate root w.nodes path t).map fun r => (r.1, { w with nodes := r.2.2 })
  | .bind self addr => bind root w self addr

def sockStep (root : ℕ) (w : SockWorld) (op : SockOp) : Option SockWorld :=
  (sockCall root w op).map Prod.snd

/-! ## Unique addresses -/

/-- Sockets that are bound to nodes of one name in a directory are the same. -/
def OneSocket (w : SockWorld) : Prop :=
  ∀ d node, w.nodes.node d = some node → node.type = .dir → ∀ v ∈ node.children, ∀ v' ∈ node.children,
    (w.nodes.node v).map Node.name = (w.nodes.node v').map Node.name →
    ∀ s s', (w.sockets s).boundVnode = some v → (w.sockets s').boundVnode = some v' → s = s'

/-- Where the name exists, `vfs_create` fails, and `bind` of a new socket fails with `-EADDRINUSE` and
leaves the sockets as they are; the directory stays as it is. -/
def FailsIfExists (root : ℕ) (w : SockWorld) (op : SockOp) (st : ℤ) (w' : SockWorld) : Prop :=
  match op with
  | .create path _ => ∀ d, NameExists w.nodes root path d → st < 0 ∧ w'.nodes.node d = w.nodes.node d
  | .bind self addr => (w.sockets self).state = .new → ∀ d, NameExists w.nodes root addr d →
      (st = -eaddrinuse ∧ w'.sockets = w.sockets) ∧ w'.nodes.node d = w.nodes.node d

/-- After every call of the run names and addresses are unique, and it failed if its name existed. -/
def UniqueRun (root : ℕ) (w : SockWorld) (ops : List SockOp) : Prop :=
  Meets (sockStep root) (fun w op => ∀ st w', sockCall root w op = some (st, w') →
    NamesUnique w'.nodes ∧ OneSocket w' ∧ FailsIfExists root w op st w') w ops

/-- The name of a call is new. A socket that is bound already may be bound to anything: `bind` fails. -/
def UsesNewName (root : ℕ) (w : SockWorld) : SockOp → Prop
  | .create path _ => NewName w.nodes root path
  | .bind self addr => (w.sockets self).state = .new → NewName w.nodes root addr

/-- Names are unique, and no vnode is bound to two sockets. -/
structure SockInv (w : SockWorld) : Prop where
  fresh : Fresh w.nodes
  unique : NamesUnique w.nodes
  bound : ∀ s v, (w.sockets s).boundVnode = some v → v < w.nodes.next
  inj : ∀ s s' v, (w.sockets s).boundVnode = some v → (w.sockets s').boundVnode = some v → s = s'

section

variable {root : ℕ} {w w' : SockWorld} {op : SockOp} {st : ℤ}

theorem SockInv.oneSocket (hw : SockInv w) : OneSocket w := by
  intro d node hd hdir v hv v' hv' hname s s' hs hs'
  obtain rfl := List.inj_on_of_nodup_map (hw.unique d node hd hdir) hv hv' hname
  exact hw.inj s s' v hs hs'

theorem bind_some {self : ℕ} {addr : CStr} (hnew : (w.sockets self).state = .new)
    (h : bind root w self addr = some (st, w')) :
    ∃ st₀ out, vfsCreate root w.nodes addr .socket = some (st₀, out, w'.nodes) ∧
      (st₀ < 0 ∧ st = -eaddrinuse ∧ w'.sockets = w.sockets ∨
        ¬ st₀ < 0 ∧ st = eok ∧ ∃ vn, out = some vn ∧
          w'.sockets = Function.update w.sockets self ⟨.bound, some vn⟩) := by
  unfold bind at h
  rw [if_neg (by rw [hnew]; decide)] at h
  obtain ⟨⟨st₀, out, nodes⟩, hcreate, h⟩ := Option.bind_eq_some_iff.mp h
  dsimp only at h
  split at h
  · next hneg =>
    cases h
    exact ⟨st₀, out, hcreate, Or.inl ⟨hneg, rfl, rfl⟩⟩
  · next hneg =>
    obtain ⟨vn, rfl, h⟩ := Option.bind_eq_some_iff.mp h
    cases h
    exact ⟨st₀, _, hcreate, Or.inr ⟨hneg, rfl, vn, rfl, rfl⟩⟩

theorem bind_of_not_new {self : ℕ} {addr : CStr} (hnew : (w.sockets self).state ≠ .new)
    (h : bind root w self addr = some (st, w')) : w' = w := by
  unfold bind at h
  rw [if_pos] at h
  · cases h
    rfl
  · cases hstate : (w.sockets self).state with
    | new => exact absurd hstate hnew
    | bound | listening | connecting | connected | closed => decide

theorem SockInv.of_nodes (hw : SockInv w) (hf : Fresh w'.nodes) (hu : NamesUnique w'.nodes)
    (hle : w.nodes.next ≤ w'.nodes.next) (hsock : w'.sockets = w.sockets) : SockInv w' := by
  refine ⟨hf, hu, ?_, ?_⟩
  · rw [hsock]
    exact fun s v hs => Nat.lt_of_lt_of_le (hw.bound s v hs) hle
  · rw [hsock]
    exact hw.inj

theorem SockInv.of_bound (hw : SockInv w) {self : ℕ} (hf : Fresh w'.nodes) (hu : NamesUnique w'.nodes)
    (hlt : w.nodes.next < w'.nodes.next)
    (hsock : w'.sockets = Function.update w.sockets self ⟨.bound, some w.nodes.next⟩) : SockInv w' := by
  have hbound : ∀ s v, (w'.sockets s).boundVnode = some v →
      s = self ∧ v = w.nodes.next ∨ (w.sockets s).boundVnode = some v := by
    intro s v hs
    rw [hsock] at hs
    by_cases heq : s = self
    · subst heq
      rw [Function.update_self] at hs
      exact Or.inl ⟨rfl, (Option.some.inj hs).symm⟩
    · rw [Function.update_of_ne heq] at hs
      exact Or.inr hs
  refine ⟨hf, hu, fun s v hs => ?_, fun s s' v hs hs' => ?_⟩
  · rcases hbound s v hs with ⟨-, rfl⟩ | hs
    · exact hlt
    · exact Nat.lt_trans (hw.bound s v hs) hlt
  · rcases hbound s v hs with ⟨rfl, rfl⟩ | hs <;> rcases hbound s' _ hs' with ⟨rfl, hv⟩ | hs'
    · rfl
    · exact absurd (hw.bound s' _ hs') (Nat.lt_irrefl _)
    · subst hv
      exact absurd (hw.bound s _ hs) (Nat.lt_irrefl _)
    · exact hw.inj s s' v hs hs'

theorem sockCall_inv (hw : SockInv w) (hop : UsesNewName root w op)
    (h : sockCall root w op = some (st, w')) : SockInv w' := by
  cases op with
  | create path t =>
    obtain ⟨⟨st₀, out, nodes⟩, hcreate, h⟩ := Option.map_eq_some_iff.mp h
    cases h
    obtain ⟨hf, hu, hle, -⟩ := vfsCreate_keeps hw.fresh hw.unique hop hcreate
    exact hw.of_nodes hf hu hle rfl
  | bind self addr =>
    by_cases hnew : (w.sockets self).state = .new
    · obtain ⟨st₀, out, hcreate, hcase⟩ := bind_some hnew h
      obtain ⟨hf, hu, hle, hout⟩ := vfsCreate_keeps hw.fresh hw.unique (hop hnew) hcreate
      rcases hcase with ⟨-, -, hsock⟩ | ⟨hst, -, vn, rfl, hsock⟩
      · exact hw.of_nodes hf hu hle hsock
      · obtain ⟨hvn, hlt⟩ := hout hst
        cases hvn
        exact hw.of_bound hf hu hlt hsock
    · cases bind_of_not_new hnew h
      exact hw

theorem sockCall_right_iff (hw : SockInv w) (h : sockCall root w op = some (st, w')) :
    (NamesUnique w'.nodes ∧ OneSocket w' ∧ FailsIfExists root w op st w') ↔ UsesNewName root w op := by
  cases op with
  | create path t =>
    obtain ⟨⟨st₀, out, nodes⟩, hcreate, heq⟩ := Option.map_eq_some_iff.mp h
    cases heq
    have hiff := createRight_iff hw.fresh hw.unique hcreate
    refine ⟨fun ⟨hu, _, hfail⟩ => hiff.mp ⟨hu, hfail⟩, fun hop => ?_⟩
    obtain ⟨hu, hfail⟩ := hiff.mpr hop
    exact ⟨hu, (sockCall_inv hw hop h).oneSocket, hfail⟩
  | bind self addr =>
    by_cases hnew : (w.sockets self).state = .new
    · obtain ⟨st₀, out, hcreate, hcase⟩ := bind_some hnew h
      have hiff := createRight_iff hw.fresh hw.unique hcreate
      constructor
      · rintro ⟨hu, -, hfail⟩ -
        refine hiff.mp ⟨hu, fun d hd => ?_⟩
        obtain ⟨⟨hst, -⟩, hnode⟩ := hfail hnew d hd
        rcases hcase with ⟨hneg, -, -⟩ | ⟨-, rfl, -⟩
        · exact ⟨hneg, hnode⟩
        · exact absurd hst (by decide)
      · intro hop
        obtain ⟨hu, hfail⟩ := hiff.mpr (hop hnew)
        refine ⟨hu, (sockCall_inv hw hop h).oneSocket, fun _ d hd => ?_⟩
        obtain ⟨hneg, hnode⟩ := hfail d hd
        rcases hcase with ⟨-, hst, hsock⟩ | ⟨hpos, -⟩
        · exact ⟨⟨hst, hsock⟩, hnode⟩
        · exact absurd hneg hpos
    · cases bind_of_not_new hnew h
      exact iff_of_true ⟨hw.unique, hw.oneSocket, fun hn => absurd hn hnew⟩ fun hn => absurd hn hnew

end

/-- Names and addresses are unique in a run exactly if it creates and binds new names only. -/
theorem names_unique_iff (root : ℕ) {w t : SockWorld} (hw : SockInv w) {ops : List SockOp}
    (hrun : run (sockStep root) w ops = some t) :
    UniqueRun root w ops ↔ Meets (sockStep root) (UsesNewName root) w ops := by
  refine meets_iff_of_run (I := SockInv) (fun s op s' hs hstep => ?_) (fun s op s' hs hop hstep => ?_) hw hrun
  · obtain ⟨⟨st, t⟩, hcall, rfl⟩ := Option.map_eq_some_iff.mp hstep
    rw [← sockCall_right_iff hs hcall]
    refine ⟨fun h => h st t hcall, fun h st' t' hcall' => ?_⟩
    cases hcall.symm.trans hcall'
    exact h
  · obtain ⟨⟨st, t⟩, hcall, rfl⟩ := Option.map_eq_some_iff.mp hstep
    exact sockCall_inv hs hop hcall

def sockStart : SockWorld := ⟨dirStart.nodes, fun _ => ⟨.new, none⟩, fun _ => none⟩

theorem sockStart_inv : SockInv sockStart := by
  refine ⟨dirStart_inv.fresh, ?_, (fun _ _ h => by cases h), (fun _ _ _ h => by cases h)⟩
  rintro (_ | n) node h hdir
  · cases h
    exact List.nodup_nil
  · cases h

def pathA : CStr := .ofList [47, 97] rfl

def pathB : CStr := .ofList [47, 98] rfl

/-- A socket is bound to `/a`, and another one to `/b`. -/
theorem names_unique_sample :
    SockInv sockStart ∧ ∃ t, run (sockStep 0) sockStart [.bind 0 pathA, .bind 1 pathB] = some t ∧
      UniqueRun 0 sockStart [.bind 0 pathA, .bind 1 pathB] := by
  obtain ⟨t, ht, hfirst⟩ : ∃ t ∈ run (sockStep 0) sockStart [.bind 0 pathA, .bind 1 pathB],
      ∀ w ∈ sockStep 0 sockStart (.bind 0 pathA), w.nodes.lookup 0 (CStr.components slash []) = some 0 ∧
        w.nodes.lookup 0 (opened []) = some 0 ∧ w.nodes.child? 0 [98] = none := by decide +kernel
  refine ⟨sockStart_inv, t, ht, (names_unique_iff 0 sockStart_inv ht).mpr
    ⟨fun _ => ?_, fun w hw => ⟨fun _ => ?_, fun _ _ => trivial⟩⟩⟩
  · rintro parent name - - (_ | d) -
    · rfl
    · rfl
  · obtain ⟨hlookup, hopened, hchild⟩ := hfirst w hw
    intro parent name hpath hname d hd
    have hpath : [47, 98] = parent ++ slash :: name := hpath
    obtain ⟨rfl, rfl⟩ : parent = [] ∧ name = [98] := by
      rcases parent with _ | ⟨_, _ | _⟩
      · exact ⟨rfl, (List.tail_eq_of_cons_eq hpath).symm⟩
      · cases hpath
      · simp at hpath
    rw [hlookup, hopened, or_self] at hd
    rwa [← Option.some.inj hd]

/-- Two sockets are bound to `/a`, one after the other, and the root has two children with this name. -/
theorem address_bound_twice :
    ((run (sockStep 0) sockStart [.bind 0 pathA, .bind 1 pathA]).map fun t =>
      (t.sockets 0, t.sockets 1)) = some (⟨.bound, some 1⟩, ⟨.bound, some 2⟩) ∧
    ((run (sockStep 0) sockStart [.bind 0 pathA, .bind 1 pathA]).bind fun t =>
      (t.nodes.node 0).map t.nodes.names) = some [some nameA, some nameA] ∧
    ((sockStep 0 sockStart (.bind 0 pathA)).bind fun t =>
      (sockCall 0 t (.bind 1 pathA)).map Prod.fst) = some eok := by
  decide +kernel

end LykOS.Sockets
