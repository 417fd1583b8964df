import MvccLite.Store.Writes

/-! A transaction object: a pinned snapshot and a private write buffer. `commit`
and `abort` stop short of the manager's `unregister`, which is a critical section
of its own. -/
namespace MvccLite

inductive TxnState where
  | active
  | committed
  | aborted
  deriving DecidableEq, Repr

/-- `writeSet` holds one pending outcome for each key; `none` is a buffered delete. -/
structure Transaction where
  txnId : Nat
  snapshotVersion : Nat
  state : TxnState := .active
  writeSet : AList (fun _ : String => Option String) := ∅

namespace Transaction

def notActive : Reply := { status := .invalidArgument "transaction is not active" }

def get (store : VersionStore) (txn : Transaction) (key : String) : Reply :=
  if txn.state ≠ .active then notActive
  else
    match txn.writeSet.lookup key with
    | some (some value) => { status := .ok, value := some value }
    | some none => { status := .notFound ("key deleted within this transaction: " ++ key) }
    | none => store.getAsOf key txn.snapshotVersion

def put (txn : Transaction) (key value : String) : Transaction × Reply :=
  if txn.state ≠ .active then (txn, notActive)
  else if key = "" then (txn, { status := .invalidArgument "key must not be empty" })
  else ({ txn with writeSet := txn.writeSet.insert key (some value) }, { status := .ok })

def delete (store : VersionStore) (txn : Transaction) (key : String) : Transaction × Reply :=
  if txn.state ≠ .active then (txn, notActive)
  else if key = "" then (txn, { status := .invalidArgument "key must not be empty" })
  else
    match txn.writeSet.lookup key with
    | some none =>
      (txn, { status := .notFound ("key already deleted within this transaction: " ++ key) })
    | some (some _) => ({ txn with writeSet := txn.writeSet.insert key none }, { status := .ok })
    | none =>
      let s := (store.getAsOf key txn.snapshotVersion).status
      if s.isOk then ({ txn with writeSet := txn.writeSet.insert key none }, { status := .ok })
      else (txn, { status := s })

def exec (store : VersionStore) (txn : Transaction) : DataCall → Transaction × Reply
  | .get key => (txn, txn.get store key)
  | .put key value => txn.put key value
  | .delete key => txn.delete store key

/-- The buffered writes in the iteration order of the write set. -/
def ops (txn : Transaction) : List WriteOp := txn.writeSet.entries.map (fun e => ⟨e.1, e.2⟩)

/-- `Commit` up to its call of `Unregister`. -/
def commit (store : VersionStore) (txn : Transaction) (wantKeys : Bool) :
    VersionStore × Transaction × Reply :=
  if txn.state ≠ .active then (store, txn, notActive)
  else if txn.writeSet.entries = [] then
    (store, { txn with state := .committed }, { status := .ok, version := some txn.snapshotVersion })
  else
    let out := store.applyBatchIfNoConflict txn.ops txn.snapshotVersion wantKeys
    if out.2.status.isOk then
      (out.1, { txn with state := .committed }, { status := .ok, version := out.2.version })
    else
      (out.1, { txn with state := .aborted, writeSet := ∅ },
        { status := out.2.status, conflictingKeys := out.2.conflictingKeys })

/-- `Abort` up to its call of `Unregister`. -/
def abort (txn : Transaction) : Transaction × Reply :=
  if txn.state ≠ .active then (txn, notActive)
  else ({ txn with state := .aborted, writeSet := ∅ }, { status := .ok })

theorem notActive_failed : notActive.Failed := by simp [Reply.Failed, notActive]

section inactive
variable {txn : Transaction}

theorem exec_inactive (h : txn.state ≠ .active) (store : VersionStore) (c : DataCall) :
    txn.exec store c = (txn, notActive) := by
  cases c <;> simp [exec, get, put, delete, h]

theorem commit_inactive (h : txn.state ≠ .active) (store : VersionStore) (want : Bool) :
    txn.commit store want = (store, txn, notActive) := by
  simp [commit, h]

theorem abort_inactive (h : txn.state ≠ .active) : txn.abort = (txn, notActive) := by
  simp [abort, h]

end inactive

end Transaction
end MvccLite
