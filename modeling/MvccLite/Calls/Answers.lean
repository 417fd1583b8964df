import MvccLite.Calls.History
import MvccLite.Txn.Agreement

/-! What an active transaction has answered so far, and from which keys of its
snapshot. -/
namespace MvccLite.Calls
open Library

/-- A data call on the transaction, issued while it is active, with its reply. -/
def activeCall (id : Nat) (t : Event) : Option (DataCall × Reply) :=
  match t.label, t.output, t.source.txns id with
  | .data id' c, .reply r, some txn => if id' = id ∧ txn.state = .active then some (c, r) else none
  | _, _, _ => none

def activeCalls (id : Nat) (tr : List Event) : List (DataCall × Reply) := tr.filterMap (activeCall id)

theorem activeCalls_concat (id : Nat) (tr : List Event) (t : Event) :
    activeCalls id (tr ++ [t]) = activeCalls id tr ++ (activeCall id t).toList := filterMap_concat _ _ _

theorem activeCall_none {id : Nat} {t : Event} (h : ∀ c, t.label ≠ .data id c) : activeCall id t = none := by
  unfold activeCall
  split
  · rename_i id' c r txn hl _ _
    rw [if_neg]
    rintro ⟨rfl, _⟩
    exact h c hl
  · rfl

/-- The key that the call gets or tries to delete without the transaction having written it. -/
def lookedUp (id : Nat) (t : Event) : Option String :=
  match t.label, t.source.txns id with
  | .data id' c, some txn => if id' = id ∧ txn.state = .active then WriteSet.looksUp txn.writeSet c else none
  | _, _ => none

/-- The answers of an active transaction are those of its buffer over its snapshot. -/
structure Answered (id : Nat) (txn : Transaction) (tr : List Event) : Prop where
  writeSet : (WriteSet.run ((callLog tr).valueAt txn.snapshotVersion) ∅ ((activeCalls id tr).map Prod.fst)).1 =
    txn.writeSet
  replies : (WriteSet.run ((callLog tr).valueAt txn.snapshotVersion) ∅ ((activeCalls id tr).map Prod.fst)).2.1 =
    (activeCalls id tr).map (fun call => call.2.observed)
  reads : ∀ key ∈ (WriteSet.run ((callLog tr).valueAt txn.snapshotVersion) ∅
    ((activeCalls id tr).map Prod.fst)).2.2, ∃ u ∈ tr, key ∈ lookedUp id u

section steps
variable {tr : List Event} {t : Event} {id : Nat} {txn : Transaction}

/-- Nobody has called a transaction that is yet to begin. -/
private theorem activeCalls_fresh {s : Sys} (h : machine.Execution tr s) (hid : s.manager.nextTxnId ≤ id) :
    activeCalls id tr = [] := by
  refine List.filterMap_eq_nil_iff.mpr (fun u hu => ?_)
  obtain ⟨pre, post, rfl, hpre, hu', hpost⟩ := h.of_mem hu
  have hnone : u.source.txns id = none := by
    by_contra hne
    obtain ⟨txn, ho⟩ := Option.ne_none_iff_exists'.mp hne
    have := drawn_of_execution hpre ho
    have := nextTxnId_le hu'
    have := nextTxnId_mono hpost
    omega
  unfold activeCall
  rw [hnone]
  split
  · rename_i hno
    cases hno
  · rfl

/-- The snapshot reads the same from a longer log. -/
private theorem valueAt_concat (h : machine.Execution tr t.source) (ht : machine.Taken t)
    (ho : t.source.txns id = some txn) (ha : txn.state = .active) :
    (callLog (tr ++ [t])).valueAt txn.snapshotVersion = (callLog tr).valueAt txn.snapshotVersion := by
  have hnum := (represents_of_execution (Machine.Path.snoc h ht)).numbered
  have hle := snapshot_le_of_execution h ho ha
  rw [(represents_of_execution h).currentVersion_eq] at hle
  rw [callLog_concat] at hnum ⊢
  funext key
  exact hnum.valueAt_append hle key

private theorem answered_data (h : machine.Execution tr t.source) (ht : machine.Taken t)
    (ho : t.source.txns id = some txn) (ha : txn.state = .active) {c : DataCall} (hl : t.label = .data id c)
    (hout : t.output = .reply (txn.exec t.source.store c).2) (hans : Answered id txn tr) :
    Answered id (txn.exec t.source.store c).1 (tr ++ [t]) := by
  have hreads : Transaction.ReadsFrom t.source.store txn.snapshotVersion ((callLog tr).valueAt txn.snapshotVersion) :=
    Transaction.readsFrom (represents_of_execution h) (swept_of_execution h id txn ho ha)
  obtain ⟨hw, hobs⟩ := Transaction.exec_buffer (buffered_of_execution h ho) ha hreads c
  have hcall : activeCall id t = some (c, (txn.exec t.source.store c).2) := by simp [activeCall, hl, hout, ho, ha]
  have hcalls : (activeCalls id (tr ++ [t])).map Prod.fst = (activeCalls id tr).map Prod.fst ++ [c] := by
    simp [activeCalls_concat, hcall]
  have hsnap := (txn.exec_fixed t.source.store c).2.1
  constructor
  · rw [hsnap, valueAt_concat h ht ho ha, hcalls, WriteSet.run_concat, hans.writeSet, hw]
  · rw [hsnap, valueAt_concat h ht ho ha, hcalls, WriteSet.run_concat, hans.writeSet, hans.replies]
    simp [activeCalls_concat, hcall, hobs]
  · rw [hsnap, valueAt_concat h ht ho ha, hcalls, WriteSet.run_concat, hans.writeSet]
    intro key hk
    rcases List.mem_append.mp hk with hk | hk
    · obtain ⟨u, hu, hlook⟩ := hans.reads key hk
      exact ⟨u, List.mem_append_left _ hu, hlook⟩
    · refine ⟨t, by simp, ?_⟩
      simpa [lookedUp, hl, ho, ha] using hk

private theorem answered_other (h : machine.Execution tr t.source) (ht : machine.Taken t)
    (ho : t.source.txns id = some txn) (ha : txn.state = .active) (hl : ∀ c, t.label ≠ .data id c)
    (hans : Answered id txn tr) : Answered id txn (tr ++ [t]) := by
  have hcalls : activeCalls id (tr ++ [t]) = activeCalls id tr := by simp [activeCalls_concat, activeCall_none hl]
  have hval := valueAt_concat h ht ho ha
  constructor
  · rw [hval, hcalls]
    exact hans.writeSet
  · rw [hval, hcalls]
    exact hans.replies
  · rw [hval, hcalls]
    intro key hk
    obtain ⟨u, hu, hlook⟩ := hans.reads key hk
    exact ⟨u, List.mem_append_left _ hu, hlook⟩

end steps

theorem answered_of_execution {tr : List Event} {s : Sys} (h : machine.Execution tr s) :
    ∀ id txn, s.txns id = some txn → txn.state = .active → Answered id txn tr := by
  refine h.invariant (I := fun tr s => ∀ id txn, s.txns id = some txn → txn.state = .active →
    Answered id txn tr) (fun _ _ ho => by cases ho) ?_
  intro tr t hp ht ih id txn' ho ha
  rcases active_of ht ho ha with ⟨hl, _, hid, rfl⟩ | ⟨txn, hs, hact, ⟨c, hl, hout, rfl⟩ | ⟨hl, rfl⟩⟩
  · have hnil : activeCalls id (tr ++ [t]) = [] := by
      rw [activeCalls_concat, activeCalls_fresh hp hid.ge, activeCall_none (by simp [hl])]
      rfl
    exact ⟨by rw [hnil]; rfl, by rw [hnil]; rfl, by rw [hnil]; simp [WriteSet.run]⟩
  · exact answered_data hp ht hs hact hl hout (ih id txn hs hact)
  · exact answered_other hp ht hs hact hl (ih id _ hs hact)

end MvccLite.Calls
