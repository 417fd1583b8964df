import MvccLite.Txn.Transaction

/-! Everything a call on a transaction can do. -/
namespace MvccLite
open VersionStore

namespace Transaction
variable (store : VersionStore) (txn : Transaction)

/-- Calls on a transaction never change its identity or its snapshot. -/
theorem exec_fixed (c : DataCall) :
    (txn.exec store c).1.txnId = txn.txnId ∧
    (txn.exec store c).1.snapshotVersion = txn.snapshotVersion ∧
    (txn.exec store c).1.state = txn.state := by
  cases c with
  | get key => exact ⟨rfl, rfl, rfl⟩
  | put key value =>
    simp only [exec, put]
    split
    · exact ⟨rfl, rfl, rfl⟩
    · split <;> exact ⟨rfl, rfl, rfl⟩
  | delete key =>
    simp only [exec, delete]
    split
    · exact ⟨rfl, rfl, rfl⟩
    · split
      · exact ⟨rfl, rfl, rfl⟩
      · split
        · exact ⟨rfl, rfl, rfl⟩
        · exact ⟨rfl, rfl, rfl⟩
        · split <;> exact ⟨rfl, rfl, rfl⟩

theorem commit_fixed (want : Bool) :
    (txn.commit store want).2.1.txnId = txn.txnId ∧
    (txn.commit store want).2.1.snapshotVersion = txn.snapshotVersion := by
  unfold commit
  split
  · exact ⟨rfl, rfl⟩
  · split
    · exact ⟨rfl, rfl⟩
    · dsimp only
      split <;> exact ⟨rfl, rfl⟩

theorem abort_fixed :
    txn.abort.1.txnId = txn.txnId ∧ txn.abort.1.snapshotVersion = txn.snapshotVersion := by
  unfold abort
  split <;> exact ⟨rfl, rfl⟩

/-- No transaction is active after `Commit`. -/
theorem commit_state (want : Bool) : (txn.commit store want).2.1.state ≠ .active := by
  by_cases ha : txn.state = .active
  · simp only [commit, ha, ne_eq, not_true_eq_false, if_false]
    split
    · simp
    · split <;> simp
  · rwa [commit_inactive ha]

theorem abort_state : txn.abort.1.state ≠ .active := by
  by_cases ha : txn.state = .active
  · simp [abort, ha]
  · rwa [abort_inactive ha]

theorem mem_ops {op : WriteOp} : op ∈ txn.ops ↔ txn.writeSet.lookup op.key = some op.value := by
  obtain ⟨key, value⟩ := op
  rw [← Option.mem_def, AList.mem_lookup_iff]
  simp only [ops, List.mem_map, WriteOp.mk.injEq]
  constructor
  · rintro ⟨e, he, rfl, rfl⟩
    exact he
  · intro he
    exact ⟨⟨key, value⟩, he, rfl, rfl⟩

theorem mem_writeSet {key : String} : key ∈ txn.writeSet ↔ ∃ op ∈ txn.ops, op.key = key := by
  rw [← AList.lookup_isSome, Option.isSome_iff_exists]
  constructor
  · rintro ⟨out, hl⟩
    exact ⟨⟨key, out⟩, txn.mem_ops.mpr hl, rfl⟩
  · rintro ⟨op, hop, rfl⟩
    exact ⟨op.value, txn.mem_ops.mp hop⟩

theorem ops_eq_nil : txn.ops = [] ↔ txn.writeSet.entries = [] := by simp [ops]

/-- Each key of the write set gives one operation. -/
theorem ops_keys_nodup : (txn.ops.map WriteOp.key).Nodup := by
  have he : txn.ops.map WriteOp.key = txn.writeSet.keys := by
    simp [ops, AList.keys, List.keys]
  rw [he]
  exact txn.writeSet.keys_nodup

/-- One entry for each key of the write set. -/
theorem entriesFor_ops (version : Nat) (key : String) :
    entriesFor key version txn.ops = ((txn.writeSet.lookup key).map (VersionedValue.mk version)).toList := by
  have hnodup := txn.ops_keys_nodup
  cases hl : txn.writeSet.lookup key with
  | none =>
    refine entriesFor_eq_nil.mpr (fun op hop he => ?_)
    rw [txn.mem_ops, he, hl] at hop
    cases hop
  | some out =>
    have hop : ⟨key, out⟩ ∈ txn.ops := txn.mem_ops.mpr hl
    obtain ⟨before, rest, hsplit⟩ := List.append_of_mem hop
    rw [hsplit] at hnodup ⊢
    simp only [List.map_append, List.map_cons, List.nodup_append, List.nodup_cons, List.mem_map,
      List.mem_cons] at hnodup
    have hbefore : before.filter (fun op => decide (op.key = key)) = [] := by
      refine List.filter_eq_nil_iff.mpr (fun op hop => ?_)
      simpa using fun he => hnodup.2.2 op.key ⟨op, hop, rfl⟩ key (.inl rfl) he
    have hrest : rest.filter (fun op => decide (op.key = key)) = [] := by
      refine List.filter_eq_nil_iff.mpr (fun op hop => ?_)
      simpa using fun he => hnodup.2.1.1 ⟨op, hop, he⟩
    simp [entriesFor, hbefore, hrest]

/-- The log entry of a commit with this reply. -/
def commitEntry (r : Reply) : Option LoggedWrite :=
  if txn.writeSet.entries = [] then none else loggedWrite txn.ops r

/-- The empty key cannot be buffered. -/
def Buffered : Prop := txn.writeSet.lookup "" = none

theorem Buffered.keys {txn : Transaction} (h : txn.Buffered) {op : WriteOp} (hop : op ∈ txn.ops) : op.key ≠ "" := by
  intro he
  rw [mem_ops, he, h] at hop
  cases hop

theorem Buffered.batchRefusal {txn : Transaction} (h : txn.Buffered) (hne : txn.writeSet.entries ≠ []) :
    VersionStore.batchRefusal txn.ops = none :=
  batchRefusal_none.mpr ⟨fun he => hne (txn.ops_eq_nil.mp he), fun _ hop => h.keys hop⟩

theorem buffered_new (id snapshot : Nat) : Buffered { txnId := id, snapshotVersion := snapshot } := rfl

private theorem buffered_insert {txn : Transaction} (h : txn.Buffered) {key : String} (hk : key ≠ "")
    (value : Option String) : Buffered { txn with writeSet := txn.writeSet.insert key value } := by
  rw [Buffered, AList.lookup_insert_ne (Ne.symm hk)]
  exact h

theorem Buffered.exec {txn : Transaction} (h : txn.Buffered) (c : DataCall) : (txn.exec store c).1.Buffered := by
  cases c with
  | get key => exact h
  | put key value =>
    simp only [Transaction.exec, put]
    split
    · exact h
    · split
      · exact h
      · exact buffered_insert h ‹_› _
  | delete key =>
    simp only [Transaction.exec, delete]
    split
    · exact h
    · split
      · exact h
      · split
        · exact h
        · exact buffered_insert h ‹_› _
        · split
          · exact buffered_insert h ‹_› _
          · exact h

theorem Buffered.commit {txn : Transaction} (h : txn.Buffered) (want : Bool) :
    (txn.commit store want).2.1.Buffered := by
  unfold Transaction.commit
  split
  · exact h
  · split
    · exact h
    · dsimp only
      split
      · exact h
      · rfl

theorem Buffered.abort {txn : Transaction} (h : txn.Buffered) : txn.abort.1.Buffered := by
  unfold Transaction.abort
  split
  · exact h
  · rfl

/-- Commit of an active transaction that buffered no empty key: nothing to
write, applied in full at the next version, or in conflict and aborted. -/
theorem commit_cases {txn : Transaction} (hb : txn.Buffered) (ha : txn.state = .active) (want : Bool) :
    (txn.writeSet.entries = [] ∧ txn.commit store want =
      (store, { txn with state := .committed }, { status := .ok, version := some txn.snapshotVersion })) ∨
    (txn.writeSet.entries ≠ [] ∧ (∀ op ∈ txn.ops, store.writtenSince txn.snapshotVersion op.key = false) ∧
      txn.commit store want = (store.append txn.ops, { txn with state := .committed }, store.written)) ∨
    (txn.writeSet.entries ≠ [] ∧ (∃ op ∈ txn.ops, store.writtenSince txn.snapshotVersion op.key = true) ∧
      (txn.commit store want).1 = store ∧
      (txn.commit store want).2.1 = { txn with state := .aborted, writeSet := ∅ } ∧
      (txn.commit store want).2.2.observed = ⟨.conflict, none, none, if want then
        some ((txn.ops.filter (fun op => store.writtenSince txn.snapshotVersion op.key)).map WriteOp.key)
        else none⟩) := by
  by_cases he : txn.writeSet.entries = []
  · exact .inl ⟨he, by simp [Transaction.commit, ha, he]⟩
  · have hr := hb.batchRefusal he
    rcases store.applyBatchIfNoConflict_cases txn.ops txn.snapshotVersion want with
      ⟨refusal, hr', _⟩ | ⟨_, hc, h₁, h₂, _, _, h₅⟩ | ⟨_, hc, heq⟩
    · rw [hr] at hr'
      cases hr'
    · refine .inr (.inr ⟨he, hc, ?_⟩)
      simp [Transaction.commit, ha, he, Status.isOk, h₁, h₂, h₅, Reply.observed]
    · refine .inr (.inl ⟨he, hc, ?_⟩)
      simp [Transaction.commit, ha, he, heq, Status.isOk, VersionStore.written]

end Transaction
end MvccLite
