import MvccLite.Library.SnapshotIsolation
import MvccLite.Txn.View

/-! The store and its transactions in the terms of snapshot isolation: a logged
write is a batch, a write set is a batch not yet applied, and reads and
validation at a snapshot that no sweep has passed are those of the batches. -/
namespace MvccLite
open Library SnapshotIsolation

/-- The keys that the store accepts. -/
abbrev Key := {k : String // k ≠ ""}

/-- The last operation on each key wins. -/
def batchOf (ops : List WriteOp) : Batch Key String := fun k =>
  ((ops.filter (fun op => op.key = k.1)).getLast?).map WriteOp.value

theorem batchOf_eq (ops : List WriteOp) (version : Nat) (k : Key) :
    batchOf ops k = (entriesFor k.1 version ops).getLast?.map VersionedValue.value := by
  simp [batchOf, entriesFor, List.getLast?_map, Function.comp_def]

theorem batchOf_ne_none {ops : List WriteOp} {k : Key} : batchOf ops k ≠ none ↔ ∃ op ∈ ops, op.key = k.1 := by
  rw [batchOf_eq ops 0, Ne, Option.map_eq_none_iff, List.getLast?_eq_none_iff, entriesFor_eq_nil]
  simp

theorem batchOf_single (key : Key) (out : Option String) :
    batchOf [⟨key.1, out⟩] = Function.update (fun _ => none) key (some out) := by
  funext k
  by_cases hk : k = key
  · subst hk
    simp [batchOf]
  · have hne : key.1 ≠ k.1 := fun he => hk (Subtype.ext he.symm)
    simp [batchOf, hk, hne]

namespace WriteLog

def batches (log : WriteLog) : List (Batch Key String) := log.map (fun w => batchOf w.ops)

theorem batches_concat (log : WriteLog) (w : LoggedWrite) : batches (log ++ [w]) = log.batches ++ [batchOf w.ops] := by
  simp [batches]

@[simp] theorem length_batches (log : WriteLog) : log.batches.length = log.length := by simp [batches]

theorem batches_take (log : WriteLog) (n : Nat) : log.batches.take n = batches (log.take n) := by
  simp [batches, List.map_take]

theorem contents_batches (log : WriteLog) (k : Key) : contents log.batches k = log.latest k.1 := by
  induction log using List.reverseRecOn with
  | nil => rfl
  | append_singleton log w ih =>
    rw [batches_concat, contents_concat, Batch.over, ih, batchOf_eq w.ops w.version]
    exact (latest_concat log w.version w.ops k.1).symm

/-- What the first `n` batches leave is what a reader as of `n` finds. -/
theorem Numbered.contents_take {log : WriteLog} (h : Numbered log) (n : Nat) (k : Key) :
    contents (log.batches.take n) k = log.valueAt n k.1 := by
  rw [batches_take, contents_batches, h.valueAt_eq]

/-- A batch after the first `n` touches the key if and only if a write with a later version does. -/
theorem Numbered.touched_after {log : WriteLog} (h : Numbered log) (n : Nat) (k : Key) :
    (∃ b ∈ log.batches.drop n, b k ≠ none) ↔ ∃ w ∈ log, w.Touches k.1 ∧ n < w.version := by
  rw [batches, ← List.map_drop]
  constructor
  · rintro ⟨_, hb, ht⟩
    obtain ⟨w, hw, rfl⟩ := List.mem_map.mp hb
    obtain ⟨i, hi⟩ := List.mem_iff_getElem?.mp hw
    rw [List.getElem?_drop] at hi
    have := h.version_eq hi
    exact ⟨w, List.mem_of_getElem? hi, batchOf_ne_none.mp ht, by omega⟩
  · rintro ⟨w, hw, ht, hlt⟩
    obtain ⟨i, hi⟩ := List.mem_iff_getElem?.mp hw
    have := h.version_eq hi
    refine ⟨_, List.mem_map_of_mem (List.mem_iff_getElem?.mpr ⟨i - n, ?_⟩), batchOf_ne_none.mpr ht⟩
    rw [List.getElem?_drop, ← hi]
    congr 1
    omega

end WriteLog

/-- What a reply says, when the call was not refused. -/
def Observed.outcome (o : Observed) : Option (Answer Key String) :=
  match o.code, o.value, o.version with
  | .ok, some v, _ => some (.found v)
  | .ok, none, some n => some (.stamped n)
  | .ok, none, none => some .done
  | .notFound, _, _ => some .absent
  | .conflict, _, _ => some (.conflict (o.conflictingKeys.map (fun ks => {k | k.1 ∈ ks})))
  | .invalidArgument, _, _ => none

theorem Observed.outcome_eq_none {o : Observed} : o.outcome = none ↔ o.code = .invalidArgument := by
  obtain ⟨code, value, version, keys⟩ := o
  cases code with
  | ok => cases value <;> cases version <;> simp [outcome]
  | notFound | invalidArgument | conflict => simp [outcome]

theorem Observed.outcome_ofValue (x : Option String) : (ofValue x).outcome = some (.ofValue x) := by
  cases x <;> rfl

/-- The call that a data call on a transaction stands for, when it names a key. -/
def DataCall.isolated (id : Nat) : DataCall → Option (Call Key String Nat)
  | .get key => if h : key ≠ "" then some (.read id ⟨key, h⟩) else none
  | .put key value => if h : key ≠ "" then some (.put id ⟨key, h⟩ value) else none
  | .delete key => if h : key ≠ "" then some (.delete id ⟨key, h⟩) else none

namespace Transaction
variable {txn : Transaction}

/-- The transaction as the database sees it. -/
def opened (txn : Transaction) : Txn Key String where
  snapshot := txn.snapshotVersion
  buffer k := txn.writeSet.lookup k.1

theorem batchOf_ops (txn : Transaction) : batchOf txn.ops = txn.opened.buffer := by
  funext k
  rw [batchOf_eq txn.ops 0, txn.entriesFor_ops]
  cases hl : txn.writeSet.lookup k.1 <;> simp [opened, hl]

theorem opened_empty (hb : txn.Buffered) : (txn.opened.buffer = fun _ => none) ↔ txn.writeSet.entries = [] := by
  rw [← txn.batchOf_ops, ← txn.ops_eq_nil, List.eq_nil_iff_forall_not_mem]
  constructor
  · intro he op hop
    exact batchOf_ne_none.mpr ⟨op, hop, rfl⟩ (congrFun he ⟨op.key, hb.keys hop⟩)
  · intro he
    funext k
    by_contra hne
    obtain ⟨op, hop, _⟩ := batchOf_ne_none.mp hne
    exact he op hop

private theorem opened_assign {store : VersionStore} {c : DataCall} (key : Key) {out : Option String}
    (hw : (txn.exec store c).1.writeSet = txn.writeSet.insert key.1 out) :
    (txn.exec store c).1.opened =
      { txn.opened with buffer := Function.update txn.opened.buffer key (some out) } := by
  rw [opened, (txn.exec_fixed store c).2.1, opened, hw]
  congr
  funext k
  by_cases hk : k = key
  · subst hk
    simp
  · have hne : k.1 ≠ key.1 := fun he => hk (Subtype.ext he)
    rw [AList.lookup_insert_ne hne, Function.update_of_ne hk]

private theorem opened_same {store : VersionStore} {c : DataCall}
    (hw : (txn.exec store c).1.writeSet = txn.writeSet) : (txn.exec store c).1.opened = txn.opened := by
  rw [opened, (txn.exec_fixed store c).2.1, opened, hw]

/-- A data call without a key is refused and buffers nothing. -/
theorem exec_refused (store : VersionStore) (hb : txn.Buffered) (ha : txn.state = .active) {id : Nat} {c : DataCall}
    (hc : c.isolated id = none) :
    (txn.exec store c).2.status.code = .invalidArgument ∧ (txn.exec store c).1 = txn := by
  have hl : txn.writeSet.lookup "" = none := hb
  cases c with
  | get key | put key value | delete key =>
    have hk : key = "" := by
      by_contra hne
      simp [DataCall.isolated, hne] at hc
    subst hk
    simp [exec, get, put, delete, VersionStore.getAsOf, ha, hl]

/-- A data call with a key is that call on the database. -/
theorem exec_isolated {store : VersionStore} {db : Database Key String Nat} {base : Contents}
    (hb : txn.Buffered) (ha : txn.state = .active) (hr : ReadsFrom store txn.snapshotVersion base) {id : Nat}
    (hid : db.txns id = some txn.opened)
    (hbase : ∀ k : Key, SnapshotIsolation.contents (db.batches.take txn.snapshotVersion) k = base k.1)
    {c : DataCall} {a : Call Key String Nat} (hc : c.isolated id = some a) :
    ∃ o, (txn.exec store c).2.observed.outcome = some o ∧
      db.step a = some (db.set id (some (txn.exec store c).1.opened), o) := by
  obtain ⟨hw, ho⟩ := exec_buffer hb ha hr c
  have hseen (k : Key) : db.seen txn.opened k = WriteSet.overlay base txn.writeSet k.1 := by
    simp only [Database.seen, Batch.over, opened, hbase, WriteSet.overlay]
  have hself : db.set id (some txn.opened) = db := by
    rw [Database.set, ← hid, Function.update_eq_self]
  cases c with
  | get key =>
    obtain ⟨hk, ha'⟩ := Option.dite_none_right_eq_some.mp hc
    obtain rfl := Option.some.inj ha'
    refine ⟨.ofValue (WriteSet.overlay base txn.writeSet key), ?_, ?_⟩
    · rw [ho, WriteSet.exec, if_neg hk, Observed.outcome_ofValue]
    · simp only [Database.step, hid, Option.map_some, hseen, opened_same hw, hself]
  | put key value =>
    obtain ⟨hk, ha'⟩ := Option.dite_none_right_eq_some.mp hc
    obtain rfl := Option.some.inj ha'
    simp only [WriteSet.exec, if_neg hk] at hw ho
    refine ⟨.done, by rw [ho]; rfl, ?_⟩
    rw [opened_assign ⟨key, hk⟩ hw]
    simp only [Database.step, hid, Option.map_some, Database.assign]
  | delete key =>
    obtain ⟨hk, ha'⟩ := Option.dite_none_right_eq_some.mp hc
    obtain rfl := Option.some.inj ha'
    simp only [WriteSet.exec, if_neg hk] at hw ho
    simp only [Database.step, hid, Option.map_some, hseen]
    by_cases hv : (WriteSet.overlay base txn.writeSet key).isSome = true
    · rw [if_pos hv] at hw ho
      refine ⟨.done, by rw [ho]; rfl, ?_⟩
      rw [if_pos hv, opened_assign ⟨key, hk⟩ hw, Database.assign]
    · rw [if_neg hv] at hw ho
      refine ⟨.absent, by rw [ho]; rfl, ?_⟩
      rw [if_neg hv, opened_same hw, hself]

end Transaction

namespace Represents
variable {log : WriteLog} {b n : Nat} {s : VersionStore} {db : Database Key String Nat}

/-- Validation at a snapshot that no sweep has passed finds the keys that a later batch has touched. -/
theorem overwritten_iff (h : Represents log b s) (hdb : db.batches = log.batches) (hb : b ≤ n)
    (ops : List WriteOp) (k : Key) :
    db.Overwritten (batchOf ops) n k ↔ (∃ op ∈ ops, op.key = k.1) ∧ s.writtenSince n k.1 = true := by
  rw [Database.Overwritten, batchOf_ne_none, hdb, h.numbered.touched_after, h.writtenSince_iff hb]

theorem batch_applied (h : Represents log b s) (hdb : db.batches = log.batches) (hb : b ≤ n) {ops : List WriteOp}
    (hv : ∀ op ∈ ops, s.writtenSince n op.key = false) (report : Bool) :
    db.applyUnlessOverwritten (batchOf ops) n report = db.apply (batchOf ops) := by
  rw [Database.applyUnlessOverwritten, if_neg]
  rintro ⟨k, hk⟩
  obtain ⟨⟨op, hop, he⟩, hw⟩ := (h.overwritten_iff hdb hb ops k).mp hk
  rw [← he, hv op hop] at hw
  cases hw

theorem batch_conflicts (h : Represents log b s) (hdb : db.batches = log.batches) (hb : b ≤ n) {ops : List WriteOp}
    (hkeys : ∀ op ∈ ops, op.key ≠ "") (hv : ∃ op ∈ ops, s.writtenSince n op.key = true) (report : Bool) :
    db.applyUnlessOverwritten (batchOf ops) n report = (db, .conflict ((if report then
      some ((ops.filter (fun op => s.writtenSince n op.key)).map WriteOp.key) else none).map
        (fun ks => {k | k.1 ∈ ks}))) := by
  obtain ⟨op, hop, hw⟩ := hv
  rw [Database.applyUnlessOverwritten, if_pos]
  · have hset : {k | db.Overwritten (batchOf ops) n k} =
        {k | k.1 ∈ (ops.filter (fun op => s.writtenSince n op.key)).map WriteOp.key} := by
      ext k
      simp only [Set.mem_ofPred_eq, h.overwritten_iff hdb hb, List.mem_map, List.mem_filter]
      constructor
      · rintro ⟨⟨op, hop, he⟩, hw⟩
        exact ⟨op, ⟨hop, he ▸ hw⟩, he⟩
      · rintro ⟨op, ⟨hop, hw⟩, he⟩
        exact ⟨⟨op, hop, he⟩, he ▸ hw⟩
    rw [hset]
    cases report <;> rfl
  · exact ⟨⟨op.key, hkeys op hop⟩, (h.overwritten_iff hdb hb ops _).mpr ⟨⟨op, hop, rfl⟩, hw⟩⟩

end Represents

/-- The direct write that a writing call of the store stands for, when its arguments are accepted. -/
def WriteCall.isolated : WriteCall → Option (Call Key String Nat)
  | .put key value => if key ≠ "" then some (.apply (batchOf [⟨key, some value⟩])) else none
  | .delete key => if h : key ≠ "" then some (.remove ⟨key, h⟩) else none
  | .applyBatch ops => some (.apply (batchOf ops))
  | .applyBatchIfNoConflict ops snapshotVersion wantKeys =>
    some (.applyUnlessOverwritten (batchOf ops) snapshotVersion wantKeys)

theorem VersionStore.write_refused (s : VersionStore) {c : WriteCall} (hc : c.isolated = none) :
    (s.write c).2.status.code = .invalidArgument := by
  cases c with
  | put key value | delete key =>
    have hk : key = "" := by
      by_contra hne
      simp [WriteCall.isolated, hne] at hc
    simp [write, put, delete, hk]
  | applyBatch | applyBatchIfNoConflict => cases hc

namespace Represents
variable {log : WriteLog} {b n : Nat} {s : VersionStore} {db : Database Key String Nat}

private theorem database_same (hdb : db.batches = log.batches) :
    ({ db with batches := WriteLog.batches (log ++ []) } : Database Key String Nat) = db := by
  rw [List.append_nil, ← hdb]

private theorem apply_grown (h : Represents log b s) (hdb : db.batches = log.batches) (ops : List WriteOp) :
    db.apply (batchOf ops) =
      ({ db with batches := WriteLog.batches (log ++ [⟨s.nextVersion, ops⟩]) }, .stamped s.nextVersion) := by
  rw [Database.apply, WriteLog.batches_concat, hdb, WriteLog.length_batches, h.next]

/-- The call is refused, or is its direct write on the database. -/
private def Mirrored (log : WriteLog) (s : VersionStore) (db : Database Key String Nat) (c : WriteCall) : Prop :=
  loggedWrite c.ops (s.write c).2 = none ∧ (c.isolated = none ∨ (s.write c).2.observed.outcome = none) ∨
    ∃ a o, c.isolated = some a ∧ (s.write c).2.observed.outcome = some o ∧ db.step a =
      some ({ db with batches := WriteLog.batches (log ++ (loggedWrite c.ops (s.write c).2).toList) }, o)

private theorem put_mirrored (h : Represents log b s) (hdb : db.batches = log.batches) (key value : String) :
    Mirrored log s db (.put key value) := by
  by_cases hk : key = ""
  · exact .inl (by simp [VersionStore.write, VersionStore.put, hk, loggedWrite, WriteCall.isolated])
  · refine .inr ⟨_, .stamped s.nextVersion, if_pos hk, ?_, ?_⟩
    · simp [VersionStore.write, VersionStore.put, hk, Reply.observed, Observed.outcome]
    · rw [show s.write (.put key value) = (s.append [⟨key, some value⟩], s.written) from if_neg hk]
      exact congrArg some (h.apply_grown hdb _)

private theorem delete_mirrored (h : Represents log b s) (hdb : db.batches = log.batches) (key : String) :
    Mirrored log s db (.delete key) := by
  by_cases hk : key = ""
  · exact .inl (by simp [VersionStore.write, VersionStore.delete, hk, loggedWrite, WriteCall.isolated])
  · have hvis : (SnapshotIsolation.contents db.batches ⟨key, hk⟩).isSome = s.currentlyVisible key := by
      rw [hdb, WriteLog.contents_batches, VersionStore.currentlyVisible_eq, h.latestValue_eq]
    by_cases hv : s.currentlyVisible key = true
    · refine .inr ⟨_, .stamped s.nextVersion, dif_pos hk, ?_, ?_⟩
      · simp [VersionStore.write, VersionStore.delete, hk, hv, Reply.observed, Observed.outcome]
      · have hw : s.write (.delete key) = (s.append [⟨key, none⟩], s.written) := by
          simp [VersionStore.write, VersionStore.delete, hk, hv, VersionStore.written]
        rw [Database.step, hvis, if_pos hv, ← batchOf_single, hw]
        exact congrArg some (h.apply_grown hdb _)
    · refine .inr ⟨_, .absent, dif_pos hk, ?_, ?_⟩
      · simp [VersionStore.write, VersionStore.delete, hk, hv, Reply.observed, Observed.outcome]
      · have hw : loggedWrite (WriteCall.ops (.delete key)) (s.write (.delete key)).2 = none := by
          simp [VersionStore.write, VersionStore.delete, hk, hv, loggedWrite]
        rw [Database.step, hvis, if_neg hv, hw, Option.toList_none, database_same hdb]

private theorem applyBatch_mirrored (h : Represents log b s) (hdb : db.batches = log.batches) (ops : List WriteOp) :
    Mirrored log s db (.applyBatch ops) := by
  cases hr : VersionStore.batchRefusal ops with
  | some refusal =>
    refine .inl ?_
    simp [VersionStore.write, VersionStore.applyBatch, hr, loggedWrite, VersionStore.batchRefusal_code hr,
      Reply.observed, Observed.outcome]
  | none =>
    have hw : s.write (.applyBatch ops) = (s.append ops, s.written) := by
      simp [VersionStore.write, VersionStore.applyBatch, hr, VersionStore.written]
    refine .inr ⟨_, .stamped s.nextVersion, rfl, by rw [hw]; rfl, ?_⟩
    rw [hw]
    exact congrArg some (h.apply_grown hdb _)

private theorem applyBatchIfNoConflict_mirrored (h : Represents log b s) (hdb : db.batches = log.batches)
    (ops : List WriteOp) (hb : b ≤ n) (want : Bool) : Mirrored log s db (.applyBatchIfNoConflict ops n want) := by
  rcases s.applyBatchIfNoConflict_cases ops n want with ⟨refusal, hr, hw⟩ | ⟨hr, hc, _, h₂, h₃, h₄, h₅⟩ | ⟨_, hv, hw⟩
  · refine .inl ?_
    simp [VersionStore.write, hw, loggedWrite, VersionStore.batchRefusal_code hr, Reply.observed, Observed.outcome]
  · have hcall := h.batch_conflicts hdb hb (VersionStore.batchRefusal_none.mp hr).2 hc want
    have hout : (s.write (.applyBatchIfNoConflict ops n want)).2.observed = ⟨.conflict, none, none, _⟩ :=
      Observed.mk.injEq .. |>.mpr ⟨h₂, h₃, h₄, h₅⟩
    have hfail : loggedWrite (WriteCall.ops (.applyBatchIfNoConflict ops n want))
        (s.write (.applyBatchIfNoConflict ops n want)).2 = none := by
      simp [VersionStore.write, loggedWrite, h₂]
    refine .inr ⟨_, _, rfl, by rw [hout]; rfl, ?_⟩
    rw [hfail, Option.toList_none, database_same hdb]
    exact congrArg some hcall
  · refine .inr ⟨_, .stamped s.nextVersion, rfl, by simp only [VersionStore.write, hw]; rfl, ?_⟩
    simp only [VersionStore.write, hw]
    exact congrArg some ((h.batch_applied hdb hb hv want).trans (h.apply_grown hdb ops))

/-- A writing call of the store is refused, or is its direct write on the database. -/
theorem write_isolated (h : Represents log b s) (hdb : db.batches = log.batches) (c : WriteCall)
    (hb : ∀ ops n want, c = .applyBatchIfNoConflict ops n want → b ≤ n) :
    loggedWrite c.ops (s.write c).2 = none ∧ (c.isolated = none ∨ (s.write c).2.observed.outcome = none) ∨
    ∃ a o, c.isolated = some a ∧ (s.write c).2.observed.outcome = some o ∧ db.step a =
      some ({ db with batches := WriteLog.batches (log ++ (loggedWrite c.ops (s.write c).2).toList) }, o) := by
  cases c with
  | put key value => exact h.put_mirrored hdb key value
  | delete key => exact h.delete_mirrored hdb key
  | applyBatch ops => exact h.applyBatch_mirrored hdb ops
  | applyBatchIfNoConflict ops n want => exact h.applyBatchIfNoConflict_mirrored hdb ops (hb ops n want rfl) want

/-- Committing an active transaction is committing it on the database. -/
theorem commit_isolated (h : Represents log b s) (hdb : db.batches = log.batches) {txn : Transaction}
    (hbuf : txn.Buffered) (ha : txn.state = .active) (hb : b ≤ txn.snapshotVersion) (id : Nat) (want : Bool) :
    ∃ o, (txn.commit s want).2.2.observed.outcome = some o ∧ db.commit txn.opened id want = (Database.set
      { db with batches := WriteLog.batches (log ++ (txn.commitEntry (txn.commit s want).2.2).toList) } id none, o) := by
  rcases Transaction.commit_cases s hbuf ha want with ⟨he, heq⟩ | ⟨he, hv, heq⟩ | ⟨he, hv, _, _, hout⟩
  · refine ⟨.stamped txn.snapshotVersion, by rw [heq]; rfl, ?_⟩
    have hno : txn.commitEntry (txn.commit s want).2.2 = none := by simp [Transaction.commitEntry, he]
    rw [Database.commit, if_pos ((Transaction.opened_empty hbuf).mpr he), hno, Option.toList_none, database_same hdb]
    rfl
  · refine ⟨.stamped s.nextVersion, by rw [heq]; rfl, ?_⟩
    have hentry : txn.commitEntry (txn.commit s want).2.2 = some ⟨s.nextVersion, txn.ops⟩ := by
      simp [Transaction.commitEntry, he, heq]
    rw [Database.commit, if_neg (fun hn => he ((Transaction.opened_empty hbuf).mp hn)), hentry, ← txn.batchOf_ops]
    dsimp only
    rw [show txn.opened.snapshot = txn.snapshotVersion from rfl, h.batch_applied hdb hb hv, h.apply_grown hdb,
      Option.toList_some]
  · have hno : txn.commitEntry (txn.commit s want).2.2 = none := by
      have hf : (txn.commit s want).2.2.Failed := Reply.failed_of_observed hout (by simp)
      simp [Transaction.commitEntry, hf.not_logged]
    refine ⟨_, by rw [hout]; rfl, ?_⟩
    rw [Database.commit, if_neg (fun hn => he ((Transaction.opened_empty hbuf).mp hn)), hno, Option.toList_none,
      database_same hdb, ← txn.batchOf_ops]
    dsimp only
    rw [show txn.opened.snapshot = txn.snapshotVersion from rfl,
      h.batch_conflicts hdb hb (fun op hop => hbuf.keys hop) hv]

end Represents
end MvccLite
