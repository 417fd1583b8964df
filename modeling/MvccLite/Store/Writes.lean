import MvccLite.Store.WriteLog

/-! The four writing calls of the store as one family, and what any of them can
do: refuse and change nothing, or append its operations at the next version. -/
namespace MvccLite
open VersionStore

inductive WriteCall where
  | put (key value : String)
  | delete (key : String)
  | applyBatch (ops : List WriteOp)
  | applyBatchIfNoConflict (ops : List WriteOp) (snapshotVersion : Nat) (wantKeys : Bool)
  deriving DecidableEq, Repr

namespace WriteCall

/-- The operations that the call applies when it succeeds. -/
def ops : WriteCall → List WriteOp
  | .put key value => [⟨key, some value⟩]
  | .delete key => [⟨key, none⟩]
  | .applyBatch ops | .applyBatchIfNoConflict ops _ _ => ops

def IsBatch : WriteCall → Prop
  | .put _ _ | .delete _ => False
  | .applyBatch _ | .applyBatchIfNoConflict _ _ _ => True

end WriteCall

def VersionStore.write (s : VersionStore) : WriteCall → VersionStore × Reply
  | .put key value => s.put key value
  | .delete key => s.delete key
  | .applyBatch ops => s.applyBatch ops
  | .applyBatchIfNoConflict ops snapshotVersion wantKeys =>
    s.applyBatchIfNoConflict ops snapshotVersion wantKeys

/-- The log entry of a write call with these operations and this reply: the code
alone tells whether the call has succeeded. -/
def loggedWrite (ops : List WriteOp) (r : Reply) : Option LoggedWrite :=
  if r.status.code = .ok then some ⟨r.version.getD 0, ops⟩ else none

/-- What a successful write of the store returns. -/
def VersionStore.written (s : VersionStore) : Reply := { status := .ok, version := some s.nextVersion }

@[simp] theorem loggedWrite_written (ops : List WriteOp) (s : VersionStore) :
    loggedWrite ops s.written = some ⟨s.nextVersion, ops⟩ := rfl

/-- The reply of a call that changed nothing. -/
def Reply.Failed (r : Reply) : Prop := r.status.code ≠ .ok

theorem Reply.failed_of_observed {r : Reply} {o : Observed} (h : r.observed = o) (hc : o.code ≠ .ok) :
    r.Failed := by
  rw [← h] at hc
  exact hc

theorem Reply.Failed.not_logged {r : Reply} (h : r.Failed) (ops : List WriteOp) : loggedWrite ops r = none :=
  if_neg h

namespace VersionStore
variable (s : VersionStore)

theorem batchRefusal_none {ops : List WriteOp} :
    batchRefusal ops = none ↔ ops ≠ [] ∧ ∀ op ∈ ops, op.key ≠ "" := by
  unfold batchRefusal
  by_cases h : ops = []
  · simp [h]
  · simp only [h, if_false, ne_eq, not_false_eq_true, true_and]
    split
    · rename_i hk
      obtain ⟨op, hop, hk⟩ := hk
      simp only [reduceCtorEq, false_iff]
      exact fun hall => hall op hop hk
    · rename_i hk
      simpa using hk

theorem batchRefusal_code {ops : List WriteOp} {refusal : Status} (h : batchRefusal ops = some refusal) :
    refusal.code = .invalidArgument := by
  unfold batchRefusal at h
  split at h
  · obtain rfl := Option.some.inj h
    rfl
  · split at h
    · obtain rfl := Option.some.inj h
      rfl
    · cases h

/-- The validated batch: refused, in conflict, or applied like the plain one. -/
theorem applyBatchIfNoConflict_cases (ops : List WriteOp) (snapshot : Nat) (want : Bool) :
    (∃ refusal, batchRefusal ops = some refusal ∧
      s.applyBatchIfNoConflict ops snapshot want = (s, { status := refusal })) ∨
    (batchRefusal ops = none ∧ (∃ op ∈ ops, s.writtenSince snapshot op.key = true) ∧
      (s.applyBatchIfNoConflict ops snapshot want).1 = s ∧
      (s.applyBatchIfNoConflict ops snapshot want).2.status.code = .conflict ∧
      (s.applyBatchIfNoConflict ops snapshot want).2.value = none ∧
      (s.applyBatchIfNoConflict ops snapshot want).2.version = none ∧
      (s.applyBatchIfNoConflict ops snapshot want).2.conflictingKeys =
        if want then some ((ops.filter (fun op => s.writtenSince snapshot op.key)).map WriteOp.key)
        else none) ∨
    (batchRefusal ops = none ∧ (∀ op ∈ ops, s.writtenSince snapshot op.key = false) ∧
      s.applyBatchIfNoConflict ops snapshot want = (s.append ops, s.written)) := by
  unfold applyBatchIfNoConflict
  cases hr : batchRefusal ops with
  | some refusal => exact .inl ⟨refusal, rfl, rfl⟩
  | none =>
    by_cases hc : (ops.filter (fun op => s.writtenSince snapshot op.key)).map WriteOp.key = []
    · refine .inr (.inr ⟨rfl, ?_, by simp only [hc, if_true]; rfl⟩)
      simpa [List.filter_eq_nil_iff] using hc
    · refine .inr (.inl ⟨rfl, ?_, ?_⟩)
      · simpa [List.filter_eq_nil_iff] using hc
      · simp only [hc, if_false, Status.code_conflict, and_self]

/-- Everything a write call can do. -/
theorem write_cases (c : WriteCall) :
    ((s.write c).1 = s ∧ (s.write c).2.Failed) ∨
    (s.write c = (s.append c.ops, s.written) ∧ ∀ op ∈ c.ops, op.key ≠ "") := by
  cases c with
  | put key value =>
    by_cases hk : key = ""
    · exact .inl (by simp [write, put, hk, Reply.Failed])
    · exact .inr (by simp [write, put, hk, WriteCall.ops, written])
  | delete key =>
    by_cases hk : key = ""
    · exact .inl (by simp [write, delete, hk, Reply.Failed])
    · by_cases hv : s.currentlyVisible key = true
      · exact .inr (by simp [write, delete, hk, hv, WriteCall.ops, written])
      · exact .inl (by simp [write, delete, hk, hv, Reply.Failed])
  | applyBatch ops =>
    cases hr : batchRefusal ops with
    | some refusal => exact .inl (by simp [write, applyBatch, hr, Reply.Failed, batchRefusal_code hr])
    | none =>
      refine .inr ⟨by simp [write, applyBatch, hr, WriteCall.ops, written], ?_⟩
      exact (batchRefusal_none.mp hr).2
  | applyBatchIfNoConflict ops snapshot want =>
    rcases s.applyBatchIfNoConflict_cases ops snapshot want with
      ⟨refusal, hr, he⟩ | ⟨_, _, h₁, h₂, _⟩ | ⟨hr, _, he⟩
    · exact .inl (by simp [write, he, Reply.Failed, batchRefusal_code hr])
    · exact .inl ⟨h₁, by simp [write, Reply.Failed, h₂]⟩
    · exact .inr ⟨he, (batchRefusal_none.mp hr).2⟩

/-- A write that reports success has taken the next version, and reports it. -/
theorem write_ok {c : WriteCall} (h : (s.write c).2.status.code = .ok) : s.write c = (s.append c.ops, s.written) := by
  rcases s.write_cases c with ⟨_, hf⟩ | ⟨he, _⟩
  · exact absurd h hf
  · exact he

/-- A write that reports anything else has done nothing. -/
theorem write_failed {c : WriteCall} (h : (s.write c).2.status.code ≠ .ok) : (s.write c).1 = s := by
  rcases s.write_cases c with ⟨hs, _⟩ | ⟨he, _⟩
  · exact hs
  · exact absurd (congrArg (fun out => out.2.status.code) he) h

end VersionStore

/-- A write call extends the log by its own entry, if it succeeded. -/
theorem Represents.write {log : WriteLog} {b : Nat} {s : VersionStore} (h : Represents log b s) (c : WriteCall) :
    Represents (log ++ (loggedWrite c.ops (s.write c).2).toList) b (s.write c).1 := by
  rcases s.write_cases c with ⟨hs, hf⟩ | ⟨he, hk⟩
  · rw [hf.not_logged, hs]
    simpa using h
  · rw [he, loggedWrite_written]
    exact h.append hk

/-- What the writing and collecting calls make of an empty store. -/
inductive VersionStore.Reachable : VersionStore → Prop
  | empty : Reachable {}
  | write {s : VersionStore} (c : WriteCall) : Reachable s → Reachable (s.write c).1
  | collect {s : VersionStore} (b : Nat) : Reachable s → Reachable (s.collectGarbage b).1

/-- Every reachable store replays some log. -/
theorem VersionStore.Reachable.represents {s : VersionStore} (h : s.Reachable) :
    ∃ log b, Represents log b s := by
  induction h with
  | empty => exact ⟨[], 0, .empty⟩
  | write c _ ih =>
    obtain ⟨log, b, hr⟩ := ih
    exact ⟨_, b, hr.write c⟩
  | collect c _ ih =>
    obtain ⟨log, b, hr⟩ := ih
    exact ⟨log, _, hr.collect c⟩

end MvccLite
