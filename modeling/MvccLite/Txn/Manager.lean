import Mathlib.Logic.Function.Basic
import MvccLite.Txn.Transaction

/-! The transaction manager: identifiers, the sharded registry of active
snapshots, and the scan that computes the collection boundary from it. Each
registry function is one critical section under one shard's lock. -/
namespace MvccLite

def kNumShards : Nat := 16

/-- One shard's map from transaction to registered snapshot. -/
abbrev Shard := AList (fun _ : Nat => Nat)

structure TransactionManager where
  nextTxnId : Nat := 1
  shards : Fin kNumShards → Shard := fun _ => ∅

namespace TransactionManager

def shardFor (txnId : Nat) : Fin kNumShards := ⟨txnId % kNumShards, Nat.mod_lt _ (by decide)⟩

/-- The atomic `fetch_add` on the identifier counter. -/
def fetchTxnId (m : TransactionManager) : TransactionManager := { m with nextTxnId := m.nextTxnId + 1 }

/-- `active_snapshots[txn_id] = snapshot` in the transaction's own shard. -/
def register (m : TransactionManager) (txnId snapshot : Nat) : TransactionManager :=
  let shard := shardFor txnId
  { m with shards := Function.update m.shards shard ((m.shards shard).insert txnId snapshot) }

def unregister (m : TransactionManager) (txnId : Nat) : TransactionManager :=
  let shard := shardFor txnId
  { m with shards := Function.update m.shards shard ((m.shards shard).erase txnId) }

/-- The loop over one shard. `none` stands for `any_active = false` with `oldest`
at its initial maximum, which is neutral for the minimum. -/
def scanShard (seen : Option Nat) (shard : Shard) : Option Nat :=
  shard.entries.foldl (fun seen e =>
    some (match seen with
      | none => e.2
      | some oldest => min oldest e.2)) seen

/-- What the scan returns; with no entry seen it reads the current version. -/
def boundary (store : VersionStore) : Option Nat → Nat
  | none => store.currentVersion
  | some oldest => oldest

def oldestActiveSnapshot (m : TransactionManager) (store : VersionStore) : Nat :=
  boundary store ((List.finRange kNumShards).foldl (fun seen i => scanShard seen (m.shards i)) none)

def activeTransactionCount (m : TransactionManager) : Nat :=
  (List.finRange kNumShards).foldl (fun total i => total + (m.shards i).entries.length) 0

/-- `Begin`, run without interruption: identifier, placeholder, version read, refinement. -/
def begin (m : TransactionManager) (store : VersionStore) : TransactionManager × Transaction :=
  let txnId := m.nextTxnId
  let snapshot := store.currentVersion
  (((m.fetchTxnId.register txnId 0).register txnId snapshot),
    { txnId := txnId, snapshotVersion := snapshot })

end TransactionManager
end MvccLite
