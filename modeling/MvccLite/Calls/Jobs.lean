import MvccLite.Calls.Answers

/-! The committed work of a run, and that each piece of it, done alone on the
store of its own place in the log, answers as it did in the run. -/
namespace MvccLite.Calls
open Library VersionStore

/-- What is replayed: a transaction's data calls between its `Begin` and its
`Commit`, or a direct write. -/
inductive Work where
  | transaction (calls : List DataCall)
  | direct (c : WriteCall)
  deriving DecidableEq

/-- The work done alone. -/
def Work.replay (store : VersionStore) (m : TransactionManager) :
    Work → (VersionStore × TransactionManager) × List Observed
  | .direct c => (((store.write c).1, m), [(store.write c).2.observed])
  | .transaction calls =>
    let begun := m.begin store
    let ran := begun.2.run store calls
    let out := ran.1.commit store false
    ((out.1, begun.1.unregister begun.2.txnId), ran.2.map Reply.observed ++ [out.2.2.observed])

/-- Committed work with the version that places it, its own or that of its
snapshot, and what it answered in the run it is from. -/
structure Job where
  version : Nat
  writes : Bool
  work : Work
  outcome : List Observed
  deriving DecidableEq

/-- A direct write is replayed as it was, unless it validated against a version
below a boundary; then as the batch it applied. -/
def replayed (b : Nat) (c : WriteCall) : WriteCall := if c.Above b then c else .applyBatch c.ops

/-- The job that a call completes: a direct write or commit that reports OK. -/
def jobOf (past : List Event) (t : Event) : Option Job :=
  match t.label, t.output with
  | .write c, .reply r =>
    if r.status.code = .ok then
      some ⟨r.version.getD 0, true, .direct (replayed (highest (passBoundaries past)) c), [r.observed]⟩
    else none
  | .commit id _, .reply r =>
    if r.status.code = .ok then
      (t.source.txns id).map (fun txn =>
        ⟨r.version.getD 0, txn.writeSet.entries ≠ [], .transaction ((activeCalls id past).map Prod.fst),
          (activeCalls id past).map (fun call => call.2.observed) ++ [r.observed]⟩)
    else none
  | _, _ => none

private theorem jobOf_failed (past : List Event) {t : Event} {r : Reply} (hout : t.output = .reply r)
    (hf : r.Failed) : jobOf past t = none := by
  unfold jobOf
  rw [hout]
  split
  · rename_i he
    obtain rfl := Response.reply.inj he
    exact if_neg hf
  · rename_i he
    obtain rfl := Response.reply.inj he
    exact if_neg hf
  · rfl

def jobsFrom (past : List Event) : List Event → List Job
  | [] => []
  | t :: tr => (jobOf past t).toList ++ jobsFrom (past ++ [t]) tr

/-- The committed work of a run, in the order in which it was committed. -/
def jobs (tr : List Event) : List Job := jobsFrom [] tr

theorem jobs_concat (tr : List Event) (t : Event) : jobs (tr ++ [t]) = jobs tr ++ (jobOf tr t).toList := by
  have h (past tr : List Event) :
      jobsFrom past (tr ++ [t]) = jobsFrom past tr ++ (jobOf (past ++ tr) t).toList := by
    induction tr generalizing past with
    | nil => simp [jobsFrom]
    | cons u tr ih => simp [jobsFrom, ih]
  exact h [] tr

def writers (js : List Job) : List Job := js.filter Job.writes

/-- On any table of the log up to its place, the job answers as recorded and
leaves a table of the log up to its version. -/
structure Faithful (log : WriteLog) (j : Job) : Prop where
  bound : j.version ≤ log.length
  replays : ∀ store m, Represents (log.take (if j.writes then j.version - 1 else j.version)) 0 store →
    (j.work.replay store m).2 = j.outcome ∧ Represents (log.take j.version) 0 (j.work.replay store m).1.1

theorem Faithful.append {log : WriteLog} {j : Job} (h : Faithful log j) (log' : WriteLog) :
    Faithful (log ++ log') j := by
  have hb := h.bound
  refine ⟨by simp; omega, fun store m hr => ?_⟩
  rw [List.take_append_of_le_length (by split <;> omega)] at hr
  rw [List.take_append_of_le_length hb]
  exact h.replays store m hr

/-- The transaction replayed on a table of `log`, when the snapshot it had reads
like the whole of `log` on the keys it looked up. -/
private theorem replay_transaction {log : WriteLog} {store : VersionStore} (hr : Represents log 0 store)
    (m : TransactionManager) {base : Contents} {calls : List DataCall}
    (hagree : ∀ key ∈ (WriteSet.run base ∅ calls).2.2, base key = log.valueAt log.length key) :
    ∃ txn : Transaction, txn.Buffered ∧ txn.state = .active ∧ txn.snapshotVersion = log.length ∧
      txn.writeSet = (WriteSet.run base ∅ calls).1 ∧
      (Work.transaction calls).replay store m =
        (((txn.commit store false).1, (m.begin store).1.unregister m.nextTxnId),
          (WriteSet.run base ∅ calls).2.1 ++ [(txn.commit store false).2.2.observed]) := by
  have hv : store.currentVersion = log.length := hr.currentVersion_eq
  have hreads : Transaction.ReadsFrom store log.length (log.valueAt log.length) := hr.getAsOf_observed (Nat.zero_le _)
  obtain ⟨h₁, h₂, h₃, h₄, h₅⟩ :=
    Transaction.run_buffer hreads (Transaction.buffered_new m.nextTxnId store.currentVersion) rfl hv calls
  rw [← WriteSet.run_congr hagree] at h₄ h₅
  exact ⟨_, h₁, h₂, h₃, h₄, by rw [← h₅]; rfl⟩

/-- A transaction with a snapshot at the current version meets no conflict. -/
private theorem commit_current {log : WriteLog} {store : VersionStore} (hr : Represents log 0 store)
    {txn : Transaction} (hb : txn.Buffered) (ha : txn.state = .active) (hs : txn.snapshotVersion = log.length)
    (hne : txn.writeSet.entries ≠ []) :
    (txn.commit store false).1 = store.append txn.ops ∧ (txn.commit store false).2.2 = store.written := by
  rcases Transaction.commit_cases store hb ha false with ⟨he, _⟩ | ⟨_, _, heq⟩ | ⟨_, ⟨op, _, hw⟩, _⟩
  · exact absurd he hne
  · rw [heq]
    exact ⟨rfl, rfl⟩
  · obtain ⟨w, hw, _, hlt⟩ := (hr.writtenSince_iff (Nat.zero_le _) op.key).mp hw
    have := (hr.numbered.bounds hw).2
    omega

section faithful
variable {tr : List Event} {t : Event} {j : Job}

private theorem write_replayed {log : WriteLog} {b : Nat} {s s' : VersionStore} (h : Represents log b s)
    (h' : Represents log 0 s') {c : WriteCall} (heq : s.write c = (s.append c.ops, s.written)) :
    s'.write (replayed b c) = (s'.append c.ops, s'.written) := by
  unfold replayed
  split
  · rename_i habove
    have hobs := h.write_agree (h'.mono (Nat.zero_le b)) habove
    rcases s'.write_cases c with ⟨_, hf⟩ | ⟨heq', _⟩
    · rw [heq] at hobs
      exact absurd rfl (Reply.failed_of_observed hobs hf)
    · exact heq'
  · rename_i hbelow
    cases c with
    | put | delete | applyBatch => exact absurd trivial hbelow
    | applyBatchIfNoConflict ops snapshot want =>
      rcases s.applyBatchIfNoConflict_cases ops snapshot want with ⟨refusal, hr, he⟩ | ⟨_, _, _, hcode, _⟩ | ⟨hr, _⟩
      · have hcode : (s.applyBatchIfNoConflict ops snapshot want).2.status.code = .ok := by
          change s.applyBatchIfNoConflict ops snapshot want = _ at heq
          rw [heq]
          rfl
        rw [he, batchRefusal_code hr] at hcode
        cases hcode
      · change s.applyBatchIfNoConflict ops snapshot want = _ at heq
        rw [heq] at hcode
        cases hcode
      · simp [VersionStore.write, applyBatch, hr, WriteCall.ops, VersionStore.written]

private theorem faithful_direct (hp : machine.Execution tr t.source) {c : WriteCall}
    (heq : t.source.store.write c = (t.source.store.append c.ops, t.source.store.written))
    (hk : ∀ op ∈ c.ops, op.key ≠ "") (hentry : callEntry t = some ⟨t.source.store.nextVersion, c.ops⟩)
    (hj : j = ⟨t.source.store.nextVersion, true, .direct (replayed (highest (passBoundaries tr)) c),
      [t.source.store.written.observed]⟩) : Faithful (callLog (tr ++ [t])) j := by
  subst hj
  have hr := represents_of_execution hp
  rw [callLog_concat, hentry]
  refine ⟨by simp [hr.next], fun store m hstore => ?_⟩
  simp only [hr.next, if_true, Nat.add_sub_cancel, Option.toList_some] at hstore ⊢
  rw [List.take_append_of_le_length le_rfl, List.take_length] at hstore
  simp only [Work.replay, write_replayed hr hstore heq]
  refine ⟨by simp [VersionStore.written, Reply.observed, hr.next, hstore.next], ?_⟩
  rw [List.take_of_length_le (by simp)]
  simpa [hstore.next] using hstore.append hk

private theorem faithful_reader (hp : machine.Execution tr t.source) {id : Nat} {txn : Transaction}
    (ho : t.source.txns id = some txn) (ha : txn.state = .active) (he : txn.writeSet.entries = [])
    (hentry : callEntry t = none)
    (hj : j = ⟨txn.snapshotVersion, false, .transaction ((activeCalls id tr).map Prod.fst),
      (activeCalls id tr).map (fun call => call.2.observed) ++ [⟨.ok, none, some txn.snapshotVersion, none⟩]⟩) :
    Faithful (callLog (tr ++ [t])) j := by
  subst hj
  have hr := represents_of_execution hp
  have hans := answered_of_execution hp id txn ho ha
  have hle := snapshot_le_of_execution hp ho ha
  rw [hr.currentVersion_eq] at hle
  rw [callLog_concat, hentry, Option.toList_none, List.append_nil]
  refine ⟨hle, fun store m hstore => ?_⟩
  have hlen : ((callLog tr).take txn.snapshotVersion).length = txn.snapshotVersion := by simpa using hle
  have hagree (key : String) : (callLog tr).valueAt txn.snapshotVersion key =
      WriteLog.valueAt ((callLog tr).take txn.snapshotVersion) ((callLog tr).take txn.snapshotVersion).length key := by
    rw [hlen]
    exact hr.numbered.valueAt_take _ key
  obtain ⟨txn', hb, ha', hs, hws, hreplay⟩ := replay_transaction hstore m (fun key _ => hagree key)
  rw [hans.writeSet] at hws
  rcases Transaction.commit_cases store hb ha' false with ⟨_, heq⟩ | ⟨hne, _⟩ | ⟨hne, _⟩
  · rw [hreplay, hans.replies, heq]
    refine ⟨by simp [Reply.observed, hs, hlen], by simpa using hstore⟩
  · exact absurd (hws ▸ he) hne
  · exact absurd (hws ▸ he) hne

/-- A validated key reads the same at the snapshot and at the end of the log. -/
private theorem validated_valueAt {log : WriteLog} {b : Nat} {s : VersionStore} (h : Represents log b s) {v : Nat}
    (hb : b ≤ v) {key : String} (hv : s.writtenSince v key = false) :
    log.valueAt v key = log.valueAt log.length key := by
  rw [h.numbered.valueAt_length]
  refine WriteLog.valueAt_untouched (fun w hw htouch => ?_)
  by_contra hlt
  have := (h.writtenSince_iff hb key).mpr ⟨w, hw, htouch, not_le.mp hlt⟩
  rw [hv] at this
  cases this

private theorem faithful_writer (hp : machine.Execution tr t.source) {id : Nat} {txn : Transaction}
    (ho : t.source.txns id = some txn) (ha : txn.state = .active) (he : txn.writeSet.entries ≠ [])
    (hvalid : ∀ op ∈ txn.ops, t.source.store.writtenSince txn.snapshotVersion op.key = false)
    (hreads : ∀ u ∈ tr, ∀ key ∈ lookedUp id u, key ∈ txn.writeSet)
    (hentry : callEntry t = some ⟨t.source.store.nextVersion, txn.ops⟩)
    (hj : j = ⟨t.source.store.nextVersion, true, .transaction ((activeCalls id tr).map Prod.fst),
      (activeCalls id tr).map (fun call => call.2.observed) ++ [t.source.store.written.observed]⟩) :
    Faithful (callLog (tr ++ [t])) j := by
  subst hj
  have hr := represents_of_execution hp
  have hans := answered_of_execution hp id txn ho ha
  rw [callLog_concat, hentry]
  refine ⟨by simp [hr.next], fun store m hstore => ?_⟩
  simp only [hr.next, if_true, Nat.add_sub_cancel, Option.toList_some] at hstore ⊢
  rw [List.take_append_of_le_length le_rfl, List.take_length] at hstore
  have hagree : ∀ key ∈ (WriteSet.run ((callLog tr).valueAt txn.snapshotVersion) ∅
      ((activeCalls id tr).map Prod.fst)).2.2,
      (callLog tr).valueAt txn.snapshotVersion key = (callLog tr).valueAt (callLog tr).length key := by
    intro key hk
    obtain ⟨u, hu, hlook⟩ := hans.reads key hk
    obtain ⟨op, hop, rfl⟩ := txn.mem_writeSet.mp (hreads u hu key hlook)
    exact validated_valueAt hr (swept_of_execution hp id txn ho ha) (hvalid op hop)
  obtain ⟨txn', hb, ha', hs, hws, hreplay⟩ := replay_transaction hstore m hagree
  rw [hans.writeSet] at hws
  have hops : txn'.ops = txn.ops := by rw [Transaction.ops, hws, Transaction.ops]
  obtain ⟨hstore', hwritten⟩ := commit_current hstore hb ha' hs (hws ▸ he)
  rw [hreplay, hans.replies, hwritten, hstore', hops, List.take_of_length_le (by simp)]
  refine ⟨by simp [VersionStore.written, Reply.observed, hr.next, hstore.next], ?_⟩
  have hkeys : ∀ op ∈ txn.ops, op.key ≠ "" := fun op hop => (buffered_of_execution hp ho).keys hop
  simpa [hstore.next] using hstore.append hkeys

end faithful

/-- The transaction that a call commits, if it has something to write. -/
def updater (t : Event) : Option (Nat × Transaction) :=
  match t.label, t.output with
  | .commit id _, .reply r =>
    match r.status.code, t.source.txns id with
    | .ok, some txn => if txn.writeSet.entries = [] then none else some (id, txn)
    | _, _ => none
  | _, _ => none

/-- Every committed transaction with something to write has, in its final write
set, all keys that it got or tried to delete before having written them. -/
def ReadsWithinWrites (tr : List Event) : Prop :=
  ∀ t ∈ tr, ∀ c ∈ updater t, ∀ u ∈ tr, ∀ key ∈ lookedUp c.1 u, key ∈ c.2.writeSet

instance (tr : List Event) : Decidable (ReadsWithinWrites tr) :=
  inferInstanceAs (Decidable (∀ t ∈ tr, ∀ c ∈ updater t, ∀ u ∈ tr, ∀ key ∈ lookedUp c.1 u, key ∈ c.2.writeSet))

/-- The work that a call completes: none, a direct write, or the commit of a
transaction with nothing or with something to write. -/
private theorem job_cases {tr : List Event} {t : Event} (hp : machine.Execution tr t.source) (ht : machine.Taken t) :
    (jobOf tr t = none ∧ callEntry t = none) ∨
    (∃ c, t.source.store.write c = (t.source.store.append c.ops, t.source.store.written) ∧
      (∀ op ∈ c.ops, op.key ≠ "") ∧ callEntry t = some ⟨t.source.store.nextVersion, c.ops⟩ ∧
      jobOf tr t = some ⟨t.source.store.nextVersion, true, .direct (replayed (highest (passBoundaries tr)) c),
        [t.source.store.written.observed]⟩) ∨
    (∃ id txn, t.source.txns id = some txn ∧ txn.state = .active ∧ txn.writeSet.entries = [] ∧
      callEntry t = none ∧
      jobOf tr t = some ⟨txn.snapshotVersion, false, .transaction ((activeCalls id tr).map Prod.fst),
        (activeCalls id tr).map (fun call => call.2.observed) ++ [⟨.ok, none, some txn.snapshotVersion, none⟩]⟩) ∨
    (∃ id txn, updater t = some (id, txn) ∧ t.source.txns id = some txn ∧ txn.state = .active ∧
      txn.writeSet.entries ≠ [] ∧ (∀ op ∈ txn.ops, t.source.store.writtenSince txn.snapshotVersion op.key = false) ∧
      callEntry t = some ⟨t.source.store.nextVersion, txn.ops⟩ ∧
      jobOf tr t = some ⟨t.source.store.nextVersion, true, .transaction ((activeCalls id tr).map Prod.fst),
        (activeCalls id tr).map (fun call => call.2.observed) ++ [t.source.store.written.observed]⟩) := by
  cases hl : t.label with
  | write c =>
    have hout : t.output = .reply (t.source.store.write c).2 := by
      unfold Machine.Taken at ht
      rw [hl] at ht
      exact (Prod.mk.inj (Option.some.inj ht)).2.symm
    rcases t.source.store.write_cases c with ⟨_, hf⟩ | ⟨heq, hk⟩
    · exact .inl ⟨jobOf_failed tr hout hf, by simp [callEntry, hl, hout, hf.not_logged]⟩
    · refine .inr (.inl ⟨c, heq, hk, ?_, ?_⟩)
      · simp [callEntry, hl, hout, heq]
      · simp [jobOf, hl, hout, heq, VersionStore.written]
  | commit id want =>
    obtain ⟨txn, ho, _, hout⟩ := commit_taken ht hl
    change t.output = .reply (txn.commit t.source.store want).2.2 at hout
    have failed (hf : (txn.commit t.source.store want).2.2.Failed) : jobOf tr t = none ∧ callEntry t = none :=
      ⟨jobOf_failed tr hout hf, by simp [callEntry, Transaction.commitEntry, hl, hout, ho, hf.not_logged]⟩
    by_cases ha : txn.state = .active
    · rcases Transaction.commit_cases t.source.store (buffered_of_execution hp ho) ha want with
        ⟨he, heq⟩ | ⟨he, hvalid, heq⟩ | ⟨_, _, _, _, hobs⟩
      · refine .inr (.inr (.inl ⟨id, txn, ho, ha, he, ?_, ?_⟩))
        · simp [callEntry, hl, hout, ho, Transaction.commitEntry, he]
        · simp [jobOf, hl, hout, ho, heq, he, Reply.observed]
      · refine .inr (.inr (.inr ⟨id, txn, ?_, ho, ha, he, hvalid, ?_, ?_⟩))
        · simp [updater, hl, hout, ho, heq, he, VersionStore.written]
        · simp [callEntry, hl, hout, ho, Transaction.commitEntry, he, heq]
        · simp [jobOf, hl, hout, ho, heq, he, VersionStore.written]
      · exact .inl (failed (Reply.failed_of_observed hobs (by simp)))
    · refine .inl (failed ?_)
      rw [Transaction.commit_inactive ha]
      exact Transaction.notActive_failed
  | _ => exact .inl ⟨by simp [jobOf, hl], by simp [callEntry, hl]⟩

private theorem job_faithful {tr : List Event} {t : Event} (hp : machine.Execution tr t.source)
    (ht : machine.Taken t) (hreads : ReadsWithinWrites (tr ++ [t])) :
    (∀ j ∈ jobOf tr t, Faithful (callLog (tr ++ [t])) j) ∧
      (writers (jobOf tr t).toList).map Job.version = (callEntry t).toList.map LoggedWrite.version := by
  rcases job_cases hp ht with ⟨hj, hentry⟩ | ⟨c, heq, hk, hentry, hj⟩ | ⟨id, txn, ho, ha, he, hentry, hj⟩ |
    ⟨id, txn, hupd, ho, ha, he, hvalid, hentry, hj⟩
  · rw [hj, hentry]
    exact ⟨by simp, rfl⟩
  · refine ⟨fun j hmem => faithful_direct hp heq hk hentry ?_, by rw [hj, hentry]; rfl⟩
    exact (Option.some.inj (hj.symm.trans hmem)).symm
  · refine ⟨fun j hmem => faithful_reader hp ho ha he hentry ?_, by rw [hj, hentry]; rfl⟩
    exact (Option.some.inj (hj.symm.trans hmem)).symm
  · have hwithin : ∀ u ∈ tr, ∀ key ∈ lookedUp id u, key ∈ txn.writeSet := fun u hu =>
      hreads t (by simp) (id, txn) hupd u (by simp [hu])
    refine ⟨fun j hmem => faithful_writer hp ho ha he hvalid hwithin hentry ?_, by rw [hj, hentry]; rfl⟩
    exact (Option.some.inj (hj.symm.trans hmem)).symm

theorem ReadsWithinWrites.init {tr : List Event} {t : Event} (h : ReadsWithinWrites (tr ++ [t])) :
    ReadsWithinWrites tr :=
  fun u hu c hc v hv => h u (by simp [hu]) c hc v (by simp [hv])

/-- All committed work is faithful to the log, and its writers are the log, in order. -/
theorem jobs_of_execution {tr : List Event} {s : Sys} (h : machine.Execution tr s) (hreads : ReadsWithinWrites tr) :
    (∀ j ∈ jobs tr, Faithful (callLog tr) j) ∧
      (writers (jobs tr)).map Job.version = (callLog tr).map LoggedWrite.version := by
  revert hreads
  refine h.invariant (I := fun tr _ => ReadsWithinWrites tr → (∀ j ∈ jobs tr, Faithful (callLog tr) j) ∧
    (writers (jobs tr)).map Job.version = (callLog tr).map LoggedWrite.version)
    (fun _ => ⟨by simp [jobs, jobsFrom], rfl⟩) ?_
  intro tr t hp ht ih hreads
  obtain ⟨hall, hvers⟩ := ih hreads.init
  obtain ⟨hone, hver⟩ := job_faithful hp ht hreads
  rw [jobs_concat]
  constructor
  · intro j hj
    rcases List.mem_append.mp hj with hj | hj
    · rw [callLog_concat]
      exact (hall j hj).append _
    · exact hone j (by simpa using hj)
  · rw [writers, List.filter_append, List.map_append, callLog_concat, List.map_append]
    exact congrArg₂ (· ++ ·) hvers hver

end MvccLite.Calls
