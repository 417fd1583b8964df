import MvccLite.Library.Machine
import MvccLite.Txn.Manager

/-! The whole system at the grain of its public calls, each one atomic. -/
namespace MvccLite.Calls
open Library

/-- The live transaction objects are indexed by identifier. -/
structure Sys where
  store : VersionStore := {}
  manager : TransactionManager := {}
  txns : Nat → Option Transaction := fun _ => none
  cumulativeStats : GCStats := {}

inductive Call where
  | begin
  | data (id : Nat) (c : DataCall)
  | commit (id : Nat) (wantKeys : Bool)
  | abort (id : Nat)
  | destroy (id : Nat)
  | write (c : WriteCall)
  | get (key : String)
  | getAsOf (key : String) (asOf : Nat)
  | currentVersion
  | keyCount
  | versionCount (key : String)
  | oldestActiveSnapshot
  | activeTransactionCount
  | runOnce
  deriving DecidableEq, Repr

inductive Response where
  | began (id snapshot : Nat)
  | reply (r : Reply)
  | done
  | version (v : Nat)
  | active (n : Nat)
  /-- a count of stored keys or entries -/
  | stored (n : Nat)
  | stats (pass : GCStats)
  deriving DecidableEq

namespace Sys

def setTxn (s : Sys) (id : Nat) (txn : Option Transaction) : Sys :=
  { s with txns := Function.update s.txns id txn }

@[simp] theorem setTxn_store (s : Sys) (id : Nat) (txn : Option Transaction) :
    (s.setTxn id txn).store = s.store := rfl

@[simp] theorem setTxn_manager (s : Sys) (id : Nat) (txn : Option Transaction) :
    (s.setTxn id txn).manager = s.manager := rfl

/-- `Unregister`, which every end of an active transaction runs last. -/
def released (s : Sys) (txn : Transaction) : TransactionManager :=
  if txn.state = .active then s.manager.unregister txn.txnId else s.manager

def begin (s : Sys) : Sys × Response :=
  let out := s.manager.begin s.store
  ({ s with manager := out.1 }.setTxn out.2.txnId (some out.2), .began out.2.txnId out.2.snapshotVersion)

def commit (s : Sys) (id : Nat) (txn : Transaction) (wantKeys : Bool) : Sys × Response :=
  let out := txn.commit s.store wantKeys
  ({ s with store := out.1, manager := s.released txn }.setTxn id (some out.2.1), .reply out.2.2)

def abort (s : Sys) (id : Nat) (txn : Transaction) : Sys × Response :=
  ({ s with manager := s.released txn }.setTxn id (some txn.abort.1), .reply txn.abort.2)

def destroy (s : Sys) (id : Nat) (txn : Transaction) : Sys × Response :=
  ({ s with manager := s.released txn }.setTxn id none, .done)

def runOnce (s : Sys) : Sys × Response :=
  let boundary := s.manager.oldestActiveSnapshot s.store
  let out := s.store.collectGarbage boundary
  ({ s with store := out.1, cumulativeStats := s.cumulativeStats.add out.2 }, .stats out.2)

/-- A call on an object that does not exist cannot be made. -/
def step (s : Sys) : Call → Option (Sys × Response)
  | .begin => some s.begin
  | .data id c => (s.txns id).map (fun txn =>
      (s.setTxn id (some (txn.exec s.store c).1), .reply (txn.exec s.store c).2))
  | .commit id wantKeys => (s.txns id).map (fun txn => s.commit id txn wantKeys)
  | .abort id => (s.txns id).map (fun txn => s.abort id txn)
  | .destroy id => (s.txns id).map (fun txn => s.destroy id txn)
  | .write c => some ({ s with store := (s.store.write c).1 }, .reply (s.store.write c).2)
  | .get key => some (s, .reply (s.store.get key))
  | .getAsOf key asOf => some (s, .reply (s.store.getAsOf key asOf))
  | .currentVersion => some (s, .version s.store.currentVersion)
  | .keyCount => some (s, .stored s.store.keyCount)
  | .versionCount key => some (s, .stored (s.store.versionCount key))
  | .oldestActiveSnapshot => some (s, .version (s.manager.oldestActiveSnapshot s.store))
  | .activeTransactionCount => some (s, .active s.manager.activeTransactionCount)
  | .runOnce => some s.runOnce

end Sys

def machine : Machine Sys Call Response where
  init := {}
  step := Sys.step

abbrev Event := Transition Sys Call Response

end MvccLite.Calls
