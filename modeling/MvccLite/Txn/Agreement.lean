import MvccLite.Txn.View

/-! Two tables of one log. Whatever has been collected from either, readers and
writers at or above the bound cannot tell them apart. -/
namespace MvccLite
open VersionStore

namespace Represents
variable {log : WriteLog} {b : Nat} {s s' : VersionStore}

theorem nextVersion_agree (h : Represents log b s) (h' : Represents log b s') : s.nextVersion = s'.nextVersion :=
  h.next.trans h'.next.symm

theorem get_agree (h : Represents log b s) (h' : Represents log b s') (key : String) :
    (s.get key).observed = (s'.get key).observed := by rw [h.get_observed, h'.get_observed]

theorem getAsOf_agree (h : Represents log b s) (h' : Represents log b s') {asOf : Nat} (hb : b ≤ asOf)
    (key : String) : (s.getAsOf key asOf).observed = (s'.getAsOf key asOf).observed := by
  rw [h.getAsOf_observed hb, h'.getAsOf_observed hb]

theorem currentlyVisible_agree (h : Represents log b s) (h' : Represents log b s') (key : String) :
    s.currentlyVisible key = s'.currentlyVisible key := by
  rw [currentlyVisible_eq, currentlyVisible_eq, h.latestValue_eq, h'.latestValue_eq]

theorem writtenSince_agree (h : Represents log b s) (h' : Represents log b s') {snapshot : Nat}
    (hb : b ≤ snapshot) (key : String) : s.writtenSince snapshot key = s'.writtenSince snapshot key := by
  rw [Bool.eq_iff_iff, h.writtenSince_iff hb, h'.writtenSince_iff hb]

end Represents

/-- The call does not validate against anything below `b`. -/
def WriteCall.Above (b : Nat) : WriteCall → Prop
  | .applyBatchIfNoConflict _ snapshotVersion _ => b ≤ snapshotVersion
  | .put _ _ | .delete _ | .applyBatch _ => True

instance (b : Nat) (c : WriteCall) : Decidable (c.Above b) :=
  match c with
  | .applyBatchIfNoConflict _ snapshotVersion _ => inferInstanceAs (Decidable (b ≤ snapshotVersion))
  | .put _ _ | .delete _ | .applyBatch _ => isTrue trivial

theorem loggedWrite_congr {r r' : Reply} (h : r.observed = r'.observed) (ops : List WriteOp) :
    loggedWrite ops r = loggedWrite ops r' := by
  obtain ⟨hc, _, hv, _⟩ := Observed.mk.inj h
  rw [loggedWrite, loggedWrite, hc, hv]

section writes
variable {log : WriteLog} {b : Nat} {s s' : VersionStore}

/-- The same write gets the same answer. -/
theorem Represents.write_agree (h : Represents log b s) (h' : Represents log b s') {c : WriteCall}
    (hc : c.Above b) : (s.write c).2.observed = (s'.write c).2.observed := by
  have hn := h.nextVersion_agree h'
  cases c with
  | put key value =>
    by_cases hk : key = ""
    · simp [VersionStore.write, put, hk]
    · simp [VersionStore.write, put, hk, hn, Reply.observed]
  | delete key =>
    by_cases hk : key = ""
    · simp [VersionStore.write, delete, hk]
    · cases hv : s'.currentlyVisible key <;>
        simp [VersionStore.write, delete, hk, hn, h.currentlyVisible_agree h', hv, Reply.observed]
  | applyBatch ops =>
    cases hr : batchRefusal ops <;> simp [VersionStore.write, applyBatch, hr, hn, Reply.observed]
  | applyBatchIfNoConflict ops snapshot want =>
    have hsince : s.writtenSince snapshot = s'.writtenSince snapshot :=
      funext (h.writtenSince_agree h' hc)
    cases hr : batchRefusal ops with
    | some refusal => simp [VersionStore.write, applyBatchIfNoConflict, hr]
    | none =>
      simp only [VersionStore.write, applyBatchIfNoConflict, hr, hsince, hn]
      split <;> rfl

end writes

namespace Transaction
variable {log : WriteLog} {b : Nat} {s s' : VersionStore} {txn : Transaction}

theorem readsFrom (h : Represents log b s) (hb : b ≤ txn.snapshotVersion) :
    ReadsFrom s txn.snapshotVersion (log.valueAt txn.snapshotVersion) := h.getAsOf_observed hb

private theorem ext_writeSet {t t' : Transaction} (h₁ : t.txnId = t'.txnId)
    (h₂ : t.snapshotVersion = t'.snapshotVersion) (h₃ : t.state = t'.state) (h₄ : t.writeSet = t'.writeSet) :
    t = t' := by
  cases t
  cases t'
  simp_all

/-- A data call leaves the same object and the same answer. -/
theorem exec_agree (h : Represents log b s) (h' : Represents log b s') (hbuf : txn.Buffered)
    (hb : txn.state = .active → b ≤ txn.snapshotVersion) (c : DataCall) :
    (txn.exec s c).1 = (txn.exec s' c).1 ∧ (txn.exec s c).2.observed = (txn.exec s' c).2.observed := by
  by_cases ha : txn.state = .active
  · obtain ⟨hw, ho⟩ := exec_buffer hbuf ha (readsFrom h (hb ha)) c
    obtain ⟨hw', ho'⟩ := exec_buffer hbuf ha (readsFrom h' (hb ha)) c
    obtain ⟨h₁, h₂, h₃⟩ := txn.exec_fixed s c
    obtain ⟨h₁', h₂', h₃'⟩ := txn.exec_fixed s' c
    refine ⟨ext_writeSet (h₁.trans h₁'.symm) (h₂.trans h₂'.symm) (h₃.trans h₃'.symm) (hw.trans hw'.symm), ?_⟩
    exact ho.trans ho'.symm
  · rw [exec_inactive ha, exec_inactive ha]
    exact ⟨rfl, rfl⟩

/-- A commit leaves the same object and the same answer, and extends both logs alike. -/
theorem commit_agree (h : Represents log b s) (h' : Represents log b s') (hbuf : txn.Buffered)
    (hb : txn.state = .active → b ≤ txn.snapshotVersion) (want : Bool) :
    (txn.commit s want).2.1 = (txn.commit s' want).2.1 ∧
      (txn.commit s want).2.2.observed = (txn.commit s' want).2.2.observed ∧
      Represents (log ++ (txn.commitEntry (txn.commit s want).2.2).toList) b (txn.commit s' want).1 := by
  by_cases ha : txn.state = .active
  · have hsince : s.writtenSince txn.snapshotVersion = s'.writtenSince txn.snapshotVersion :=
      funext (h.writtenSince_agree h' (hb ha))
    have hn := h.nextVersion_agree h'
    rcases commit_cases s hbuf ha want with ⟨he, heq⟩ | ⟨he, hv, heq⟩ | ⟨he, ⟨op, hop, hw⟩, h₁, h₂, h₃⟩
    · rcases commit_cases s' hbuf ha want with ⟨_, heq'⟩ | ⟨hne, _⟩ | ⟨hne, _⟩
      · rw [heq, heq']
        refine ⟨rfl, rfl, ?_⟩
        simpa [commitEntry, he] using h'
      · exact absurd he hne
      · exact absurd he hne
    · rcases commit_cases s' hbuf ha want with ⟨hnil, _⟩ | ⟨_, _, heq'⟩ | ⟨_, ⟨op, hop, hw⟩, _⟩
      · exact absurd hnil he
      · rw [heq, heq']
        refine ⟨rfl, by simp [VersionStore.written, Reply.observed, hn], ?_⟩
        simpa [commitEntry, he, hn] using h'.append (fun op hop => hbuf.keys hop)
      · rw [← hsince, hv op hop] at hw
        cases hw
    · rcases commit_cases s' hbuf ha want with ⟨hnil, _⟩ | ⟨_, hv, _⟩ | ⟨_, _, h₁', h₂', h₃'⟩
      · exact absurd hnil he
      · rw [hsince, hv op hop] at hw
        cases hw
      · have hf : (txn.commit s want).2.2.Failed := Reply.failed_of_observed h₃ (by simp)
        refine ⟨h₂.trans h₂'.symm, by rw [h₃, h₃', hsince], ?_⟩
        rw [h₁']
        simpa [commitEntry, he, hf.not_logged] using h'
  · rw [commit_inactive ha, commit_inactive ha]
    refine ⟨rfl, rfl, ?_⟩
    simpa [commitEntry, notActive_failed.not_logged] using h'

end Transaction
end MvccLite
