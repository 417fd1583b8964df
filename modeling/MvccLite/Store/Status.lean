import Mathlib.Data.List.Basic

/-! Result type of every fallible call, and the record of what such a call
hands back: its status and whatever it writes through its out-pointers. -/
namespace MvccLite

inductive Code where
  | ok
  | notFound
  | invalidArgument
  | conflict
  deriving DecidableEq, Repr

structure Status where
  code : Code
  message : String
  deriving DecidableEq, Repr

namespace Status

def ok : Status := ⟨.ok, ""⟩
def notFound (msg : String) : Status := ⟨.notFound, msg⟩
def invalidArgument (msg : String) : Status := ⟨.invalidArgument, msg⟩
def conflict (msg : String) : Status := ⟨.conflict, msg⟩

def isOk (s : Status) : Bool := s.code = .ok
def isConflict (s : Status) : Bool := s.code = .conflict

@[simp] theorem code_ok : Status.ok.code = .ok := rfl
@[simp] theorem code_notFound (msg : String) : (notFound msg).code = .notFound := rfl
@[simp] theorem code_invalidArgument (msg : String) : (invalidArgument msg).code = .invalidArgument := rfl
@[simp] theorem code_conflict (msg : String) : (conflict msg).code = .conflict := rfl

end Status

/-- A status with the out-parameters of the call; `none` is a pointee left alone. -/
structure Reply where
  status : Status
  value : Option String := none
  version : Option Nat := none
  conflictingKeys : Option (List String) := none
  deriving DecidableEq, Repr

/-- What a caller can compare: everything but the message text. -/
structure Observed where
  code : Code
  value : Option String
  version : Option Nat
  conflictingKeys : Option (List String)
  deriving DecidableEq, Repr

def Reply.observed (r : Reply) : Observed := ⟨r.status.code, r.value, r.version, r.conflictingKeys⟩

/-- What any two stores can be compared by: code and value, without versions. -/
def Observed.answer (o : Observed) : Code × Option String := (o.code, o.value)

def Reply.answer (r : Reply) : Code × Option String := (r.status.code, r.value)

theorem Reply.answer_observed (r : Reply) : r.observed.answer = r.answer := rfl

/-- The three calls that a plain store and a transaction have in common. -/
inductive DataCall where
  | get (key : String)
  | put (key value : String)
  | delete (key : String)
  deriving DecidableEq, Repr

end MvccLite
