import MvccLite.Library.Machine
import MvccLite.Txn.Manager

/-! The whole system at the grain of its critical sections. A transaction object
belongs to one thread at a time, so each transaction is a process of its own, and
so is each collector pass; any interleaving of their sections is a run. -/
namespace MvccLite.Threads
open Library

/-- Where the thread that owns a transaction stands. -/
inductive Phase where
  /-- the identifier is drawn, nothing is registered -/
  | allocated
  /-- the placeholder is in the registry -/
  | placed
  /-- the snapshot is read, the registry still holds the placeholder -/
  | versionRead (snapshot : Nat)
  /-- `Begin` has returned and no call on the object is in progress -/
  | returned (txn : Transaction)
  /-- `Commit` or `Abort` has left the active state and is about to unregister -/
  | ending (txn : Transaction)
  /-- the destructor of an active object is about to unregister -/
  | destroying (txn : Transaction)

/-- Where a `RunOnce` pass stands. -/
inductive Pass where
  | idle
  /-- shards below `next` are visited; `seen` is the oldest entry met so far -/
  | scanning (next : Nat) (seen : Option Nat)
  /-- the boundary is computed, the store not yet swept -/
  | bounded (boundary : Nat)
  /-- the store is swept, the counts not yet added -/
  | collected (stats : GCStats)
  deriving DecidableEq

/-- Transactions and passes are indexed by identifier; a destroyed object is gone. -/
structure State where
  store : VersionStore := {}
  manager : TransactionManager := {}
  clients : Nat → Option Phase := fun _ => none
  passes : Nat → Pass := fun _ => .idle
  cumulativeStats : GCStats := {}

/-- The critical sections, with the local code around them. -/
inductive Action where
  | fetchTxnId
  | placeholder (id : Nat)
  | readVersion (id : Nat)
  | refine (id : Nat)
  | data (id : Nat) (c : DataCall)
  | commit (id : Nat) (wantKeys : Bool)
  | abort (id : Nat)
  | destroy (id : Nat)
  | unregister (id : Nat)
  | write (c : WriteCall)
  | runOnce (p : Nat)
  | visitShard (p : Nat)
  | finishScan (p : Nat)
  | collectGarbage (p : Nat)
  | addStats (p : Nat)
  deriving DecidableEq, Repr

namespace State

def setClient (s : State) (id : Nat) (ph : Option Phase) : State :=
  { s with clients := Function.update s.clients id ph }

def setPass (s : State) (p : Nat) (pass : Pass) : State :=
  { s with passes := Function.update s.passes p pass }

/-- The sections of the owning thread of one transaction. -/
def stepClient (s : State) (id : Nat) (a : Action) : Option (State × Option Reply) :=
  match a, s.clients id with
  | .placeholder _, some .allocated =>
    some ({ s with manager := s.manager.register id 0 }.setClient id (some .placed), none)
  | .readVersion _, some .placed =>
    some (s.setClient id (some (.versionRead s.store.currentVersion)), none)
  | .refine _, some (.versionRead snapshot) =>
    some ({ s with manager := s.manager.register id snapshot }.setClient id
      (some (.returned { txnId := id, snapshotVersion := snapshot })), none)
  | .data _ c, some (.returned txn) =>
    some (s.setClient id (some (.returned (txn.exec s.store c).1)), some (txn.exec s.store c).2)
  | .commit _ wantKeys, some (.returned txn) =>
    let out := txn.commit s.store wantKeys
    if txn.state = .active then
      some ({ s with store := out.1 }.setClient id (some (.ending out.2.1)), some out.2.2)
    else some (s, some out.2.2)
  | .abort _, some (.returned txn) =>
    if txn.state = .active then some (s.setClient id (some (.ending txn.abort.1)), some txn.abort.2)
    else some (s, some txn.abort.2)
  | .destroy _, some (.returned txn) =>
    if txn.state = .active then some (s.setClient id (some (.destroying txn)), none)
    else some (s.setClient id none, none)
  | .unregister _, some (.ending txn) =>
    some ({ s with manager := s.manager.unregister txn.txnId }.setClient id (some (.returned txn)), none)
  | .unregister _, some (.destroying txn) =>
    some ({ s with manager := s.manager.unregister txn.txnId }.setClient id none, none)
  | _, _ => none

/-- The sections of one collector pass. -/
def stepPass (s : State) (p : Nat) (a : Action) : Option (State × Option Reply) :=
  match a, s.passes p with
  | .runOnce _, .idle => some (s.setPass p (.scanning 0 none), none)
  | .visitShard _, .scanning next seen =>
    if h : next < kNumShards then
      some (s.setPass p (.scanning (next + 1)
        (TransactionManager.scanShard seen (s.manager.shards ⟨next, h⟩))), none)
    else none
  | .finishScan _, .scanning next seen =>
    if next = kNumShards then
      some (s.setPass p (.bounded (TransactionManager.boundary s.store seen)), none)
    else none
  | .collectGarbage _, .bounded b =>
    some ({ s with store := (s.store.collectGarbage b).1 }.setPass p
      (.collected (s.store.collectGarbage b).2), none)
  | .addStats _, .collected stats =>
    some ({ s with cumulativeStats := s.cumulativeStats.add stats }.setPass p .idle, none)
  | _, _ => none

def step (s : State) (a : Action) : Option (State × Option Reply) :=
  match a with
  | .fetchTxnId =>
    some ({ s with manager := s.manager.fetchTxnId }.setClient s.manager.nextTxnId (some .allocated), none)
  | .placeholder id | .readVersion id | .refine id | .data id _ | .commit id _ | .abort id
  | .destroy id | .unregister id => s.stepClient id a
  | .write c => some ({ s with store := (s.store.write c).1 }, some (s.store.write c).2)
  | .runOnce p | .visitShard p | .finishScan p | .collectGarbage p | .addStats p => s.stepPass p a

end State

def machine : Machine State Action (Option Reply) where
  init := {}
  step := State.step

abbrev Event := Transition State Action (Option Reply)

end MvccLite.Threads
