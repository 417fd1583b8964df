import Mathlib.Data.List.AList
import MvccLite.Library.PartitionPoint
import MvccLite.Store.Status

/-! The multi-version store: every write appends to the history of its key at a
number drawn from one counter shared by all keys. Each function is the body of
one critical section under the store's lock. Versions are natural numbers here;
`MvccLite.Store.Uint64` relates them to the 64-bit counter. -/
namespace MvccLite
open Library

/-- An entry of a key's history; `none` is a tombstone. -/
structure VersionedValue where
  version : Nat
  value : Option String
  deriving DecidableEq, Repr

/-- One write of a batch; `none` deletes. -/
structure WriteOp where
  key : String
  value : Option String
  deriving DecidableEq, Repr

structure GCStats where
  versionsReclaimed : Nat := 0
  keysRemoved : Nat := 0
  deriving DecidableEq, Repr

def GCStats.add (a b : GCStats) : GCStats :=
  ⟨a.versionsReclaimed + b.versionsReclaimed, a.keysRemoved + b.keysRemoved⟩

abbrev Table := AList (fun _ : String => List VersionedValue)

/-- `table_[key].push_back(entry)`, which creates an absent key first. -/
def Table.pushBack (t : Table) (key : String) (entry : VersionedValue) : Table :=
  t.insert key ((t.lookup key).getD [] ++ [entry])

structure VersionStore where
  table : Table := ∅
  nextVersion : Nat := 1

namespace VersionStore

/-- The stored history of a key, empty when the key is absent. -/
def history (s : VersionStore) (key : String) : List VersionedValue := (s.table.lookup key).getD []

/-- Draw the next version and append every operation at it. -/
def append (s : VersionStore) (ops : List WriteOp) : VersionStore where
  table := ops.foldl (fun t op => t.pushBack op.key ⟨s.nextVersion, op.value⟩) s.table
  nextVersion := s.nextVersion + 1

def put (s : VersionStore) (key value : String) : VersionStore × Reply :=
  if key = "" then (s, { status := .invalidArgument "key must not be empty" })
  else (s.append [⟨key, some value⟩], { status := .ok, version := some s.nextVersion })

/-- The key is present and its latest entry is not a tombstone. -/
def currentlyVisible (s : VersionStore) (key : String) : Bool :=
  match s.table.lookup key with
  | none => false
  | some history =>
    match history.getLast? with
    | none => false
    | some latest => latest.value.isSome

def delete (s : VersionStore) (key : String) : VersionStore × Reply :=
  if key = "" then (s, { status := .invalidArgument "key must not be empty" })
  else if s.currentlyVisible key then
    (s.append [⟨key, none⟩], { status := .ok, version := some s.nextVersion })
  else (s, { status := .notFound ("key not present: " ++ key) })

def get (s : VersionStore) (key : String) : Reply :=
  if key = "" then { status := .invalidArgument "key must not be empty" }
  else
    match s.table.lookup key with
    | none => { status := .notFound ("key not present: " ++ key) }
    | some history =>
      match history.getLast? with
      | none => { status := .notFound ("key not present: " ++ key) }
      | some latest =>
        match latest.value with
        | none => { status := .notFound ("key not present (deleted): " ++ key) }
        | some value => { status := .ok, value := some value, version := some latest.version }

def getAsOf (s : VersionStore) (key : String) (asOf : Nat) : Reply :=
  if key = "" then { status := .invalidArgument "key must not be empty" }
  else
    match s.table.lookup key with
    | none => { status := .notFound ("key not present: " ++ key) }
    | some history =>
      let boundary := partitionPoint (fun v => decide (v.version ≤ asOf)) history
      if boundary = 0 then
        { status := .notFound ("key did not exist as of version " ++ toString asOf) }
      else
        match history[boundary - 1]? with
        | none => { status := .notFound ("key did not exist as of version " ++ toString asOf) }
        | some visible =>
          match visible.value with
          | none => { status := .notFound ("key was deleted as of version " ++ toString asOf) }
          | some value => { status := .ok, value := some value }

def keyCount (s : VersionStore) : Nat := s.table.entries.length

def versionCount (s : VersionStore) (key : String) : Nat :=
  match s.table.lookup key with
  | none => 0
  | some history => history.length

def currentVersion (s : VersionStore) : Nat := s.nextVersion - 1

/-- The argument check that both batch calls make before taking the lock. -/
def batchRefusal (ops : List WriteOp) : Option Status :=
  if ops = [] then some (.invalidArgument "ops must not be empty")
  else if ∃ op ∈ ops, op.key = "" then some (.invalidArgument "key must not be empty")
  else none

def applyBatch (s : VersionStore) (ops : List WriteOp) : VersionStore × Reply :=
  match batchRefusal ops with
  | some refusal => (s, { status := refusal })
  | none => (s.append ops, { status := .ok, version := some s.nextVersion })

/-- The loop body of `collectGarbage` on one history: what is left of it, or
`none` when the key is erased, and the counts it adds. -/
def collectHistory (safeBoundary : Nat) (history : List VersionedValue) :
    Option (List VersionedValue) × GCStats :=
  let boundary := partitionPoint (fun v => decide (v.version ≤ safeBoundary)) history
  if boundary = 0 then (some history, {})
  else
    let numReclaimable := boundary - 1
    let trimmed := if 0 < numReclaimable then history.drop numReclaimable else history
    if trimmed.length = 1 ∧ ∃ entry ∈ trimmed.head?, entry.value = none then
      (none, ⟨numReclaimable + 1, 1⟩)
    else (some trimmed, ⟨numReclaimable, 0⟩)

/-- The sweep over the table in iteration order, accumulating the counts. -/
def collectLoop (safeBoundary : Nat) (stats : GCStats) :
    List (Sigma fun _ : String => List VersionedValue) →
      List (Sigma fun _ : String => List VersionedValue) × GCStats
  | [] => ([], stats)
  | ⟨key, history⟩ :: rest =>
    let pass := collectHistory safeBoundary history
    let out := collectLoop safeBoundary (stats.add pass.2) rest
    match pass.1 with
    | none => out
    | some kept => (⟨key, kept⟩ :: out.1, out.2)

theorem collectLoop_keys_sublist (b : Nat) (stats : GCStats)
    (entries : List (Sigma fun _ : String => List VersionedValue)) :
    (collectLoop b stats entries).1.keys.Sublist entries.keys := by
  induction entries generalizing stats with
  | nil => simp [collectLoop]
  | cons e rest ih =>
    simp only [collectLoop]
    split
    · exact (ih _).cons _
    · exact (ih _).cons_cons _

def collectGarbage (s : VersionStore) (safeBoundary : Nat) : VersionStore × GCStats :=
  let swept := collectLoop safeBoundary {} s.table.entries
  ({ s with table := ⟨swept.1, List.Nodup.sublist (collectLoop_keys_sublist _ _ _) s.table.nodupKeys⟩ }, swept.2)

/-- The key's latest stored version is newer than the snapshot. -/
def writtenSince (s : VersionStore) (snapshotVersion : Nat) (key : String) : Bool :=
  match s.table.lookup key with
  | none => false
  | some history =>
    match history.getLast? with
    | none => false
    | some latest => snapshotVersion < latest.version

/-- Validated batch. `wantKeys` says that `out_conflicting_keys` is non-null: the
list of conflicts is then moved out before its size goes into the message. -/
def applyBatchIfNoConflict (s : VersionStore) (ops : List WriteOp) (snapshotVersion : Nat)
    (wantKeys : Bool) : VersionStore × Reply :=
  match batchRefusal ops with
  | some refusal => (s, { status := refusal })
  | none =>
    let conflicts := (ops.filter (fun op => s.writtenSince snapshotVersion op.key)).map WriteOp.key
    if conflicts = [] then (s.append ops, { status := .ok, version := some s.nextVersion })
    else
      let left := if wantKeys then [] else conflicts
      (s, { status := .conflict ("write-write conflict on " ++ toString left.length ++ " key(s)"),
            conflictingKeys := if wantKeys then some conflicts else none })

end VersionStore
end MvccLite
