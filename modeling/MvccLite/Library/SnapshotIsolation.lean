import Mathlib.Data.Set.Basic
import Mathlib.Logic.Function.Basic
import MvccLite.Library.Machine

/-! A database under snapshot isolation, as its clients are meant to see it: the
batches applied so far, in order, and the open transactions. A transaction sees
the batches applied before it began and what it has buffered itself; it commits
unless a later batch has touched a key that it wants to write. -/
namespace MvccLite.Library.SnapshotIsolation
variable {K V T : Type*}

/-- What a batch does to each key: nothing, delete it or set it. -/
abbrev Batch (K V : Type*) := K → Option (Option V)

/-- The contents after a batch. -/
def Batch.over (b : Batch K V) (m : K → Option V) : K → Option V := fun k => (b k).getD (m k)

/-- The contents after all of these, in order. -/
def contents (bs : List (Batch K V)) : K → Option V := bs.foldl (fun m b => b.over m) (fun _ => none)

theorem contents_concat (bs : List (Batch K V)) (b : Batch K V) :
    contents (bs ++ [b]) = b.over (contents bs) := by
  simp [contents]

/-- How many batches the transaction sees, and what it has buffered. -/
structure Txn (K V : Type*) where
  snapshot : Nat
  buffer : Batch K V := fun _ => none

structure Database (K V T : Type*) where
  batches : List (Batch K V) := []
  txns : T → Option (Txn K V) := fun _ => none

inductive Call (K V T : Type*) where
  | begin (t : T)
  | read (t : T) (k : K)
  | put (t : T) (k : K) (v : V)
  | delete (t : T) (k : K)
  /-- `report` asks for the keys in conflict -/
  | commit (t : T) (report : Bool)
  | abort (t : T)
  /-- a batch outside any transaction -/
  | apply (b : Batch K V)
  | applyUnlessOverwritten (b : Batch K V) (n : Nat) (report : Bool)
  /-- a delete outside any transaction -/
  | remove (k : K)

inductive Answer (K V : Type*) where
  | done
  | found (v : V)
  | absent
  | stamped (n : Nat)
  | conflict (keys : Option (Set K))

namespace Answer

def ofValue : Option V → Answer K V
  | none => absent
  | some v => found v

end Answer

namespace Database
variable (db : Database K V T) (x : Txn K V)

/-- What the transaction sees. -/
def seen : K → Option V := x.buffer.over (contents (db.batches.take x.snapshot))

/-- The batch touches the key and one applied after the first `n` has touched it too. -/
def Overwritten (b : Batch K V) (n : Nat) (k : K) : Prop := b k ≠ none ∧ ∃ b' ∈ db.batches.drop n, b' k ≠ none

variable [DecidableEq K] [DecidableEq T]

def set (t : T) (x : Option (Txn K V)) : Database K V T := { db with txns := Function.update db.txns t x }

/-- Buffer an outcome for the key. -/
def assign (t : T) (k : K) (out : Option V) : Database K V T :=
  db.set t (some { x with buffer := Function.update x.buffer k (some out) })

def apply (b : Batch K V) : Database K V T × Answer K V :=
  ({ db with batches := db.batches ++ [b] }, .stamped (db.batches.length + 1))

open Classical in
/-- Apply the batch unless one after the first `n` has touched a key of it. -/
noncomputable def applyUnlessOverwritten (b : Batch K V) (n : Nat) (report : Bool) :
    Database K V T × Answer K V :=
  if ∃ k, db.Overwritten b n k then (db, .conflict (if report then some {k | db.Overwritten b n k} else none))
  else db.apply b

open Classical in
/-- Either way the transaction is closed. -/
noncomputable def commit (t : T) (report : Bool) : Database K V T × Answer K V :=
  if x.buffer = fun _ => none then (db.set t none, .stamped x.snapshot)
  else
    let out := db.applyUnlessOverwritten x.buffer x.snapshot report
    (out.1.set t none, out.2)

/-- Every call but `begin` and the direct writes needs an open transaction. -/
noncomputable def step : Call K V T → Option (Database K V T × Answer K V)
  | .begin t =>
    match db.txns t with
    | none => some (db.set t (some { snapshot := db.batches.length }), .done)
    | some _ => none
  | .read t k => (db.txns t).map (fun x => (db, .ofValue (db.seen x k)))
  | .put t k v => (db.txns t).map (fun x => (db.assign x t k (some v), .done))
  | .delete t k => (db.txns t).map (fun x =>
      if (db.seen x k).isSome then (db.assign x t k none, .done) else (db, .absent))
  | .commit t report => (db.txns t).map (fun x => db.commit x t report)
  | .abort t => (db.txns t).map (fun _ => (db.set t none, .done))
  | .apply b => some (db.apply b)
  | .applyUnlessOverwritten b n report => some (db.applyUnlessOverwritten b n report)
  | .remove k =>
    some (if (contents db.batches k).isSome then db.apply (Function.update (fun _ => none) k (some none))
      else (db, .absent))

end Database

noncomputable def machine (K V T : Type*) [DecidableEq K] [DecidableEq T] :
    Machine (Database K V T) (Call K V T) (Answer K V) where
  init := {}
  step db := db.step

end MvccLite.Library.SnapshotIsolation
