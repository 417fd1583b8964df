import Mathlib.Data.List.AList
import MvccLite.Store.Status

/-! The unversioned single-lock store. Every call is one critical section. -/
namespace MvccLite

structure KVStore where
  table : AList (fun _ : String => String) := ∅

namespace KVStore

def put (s : KVStore) (key value : String) : KVStore × Reply :=
  if key = "" then (s, { status := .invalidArgument "key must not be empty" })
  else ({ table := s.table.insert key value }, { status := .ok })

def get (s : KVStore) (key : String) : Reply :=
  if key = "" then { status := .invalidArgument "key must not be empty" }
  else
    match s.table.lookup key with
    | none => { status := .notFound ("key not present: " ++ key) }
    | some value => { status := .ok, value := some value }

def delete (s : KVStore) (key : String) : KVStore × Reply :=
  if key = "" then (s, { status := .invalidArgument "key must not be empty" })
  else
    match s.table.lookup key with
    | none => (s, { status := .notFound ("key not present: " ++ key) })
    | some _ => ({ table := s.table.erase key }, { status := .ok })

def contains (s : KVStore) (key : String) : Bool := (s.table.lookup key).isSome

def size (s : KVStore) : Nat := s.table.entries.length

def exec (s : KVStore) : DataCall → KVStore × Reply
  | .get key => (s, s.get key)
  | .put key value => s.put key value
  | .delete key => s.delete key

/-- The replies to a sequence of calls, in order. -/
def replies (s : KVStore) : List DataCall → List Reply
  | [] => []
  | c :: cs => (s.exec c).2 :: replies (s.exec c).1 cs

end KVStore
end MvccLite
