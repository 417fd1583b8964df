import MvccLite.Threads.Guard
import MvccLite.Txn.Isolation

/-! The system refines a database under snapshot isolation. `Begin` takes effect
where it reads the version, every call on an open transaction and every direct
write where it holds the store's lock; identifiers, registry and collector are
invisible. -/
namespace MvccLite.Threads
open Library SnapshotIsolation

/-- The transaction that the database has open for a thread in this phase. -/
def Phase.opened : Phase → Option (Txn Key String)
  | .versionRead snapshot => some { snapshot := snapshot }
  | .returned txn => if txn.state = .active then some txn.opened else none
  | .allocated | .placed | .ending _ | .destroying _ => none

/-- The database that a run has built. -/
def database (tr : List Event) (s : State) : Database Key String Nat where
  batches := WriteLog.batches (writeLog tr)
  txns id := (s.clients id).bind Phase.opened

/-- The call that a section stands for. -/
def Action.isolated : Action → Option (Call Key String Nat)
  | .data id c => c.isolated id
  | .commit id want => some (.commit id want)
  | .abort id => some (.abort id)
  | .write c => c.isolated
  | _ => none

/-- What a client of the database sees of a section: its call and the answer, unless
it is refused. Destroying an open transaction aborts it. -/
def visible (t : Event) : Option (Call Key String Nat × Answer Key String) :=
  match t.label with
  | .readVersion id => some (.begin id, .done)
  | .destroy id => (t.source.snapshot id).map (fun _ => (.abort id, .done))
  | a => a.isolated.bind (fun call => t.output.bind (fun r => r.observed.outcome.map (fun answer => (call, answer))))

/-- Batches validated outside a transaction name a snapshot that no sweep has passed. -/
def ValidatesUnswept (tr : List Event) : Prop :=
  ∀ pre t post ops n want, tr = pre ++ t :: post → t.label = .write (.applyBatchIfNoConflict ops n want) →
    highest (boundaries pre) ≤ n

theorem ValidatesUnswept.init {tr : List Event} {t : Event} (h : ValidatesUnswept (tr ++ [t])) :
    ValidatesUnswept tr := by
  rintro pre u post ops n want rfl hl
  exact h pre u (post ++ [t]) ops n want (by simp) hl

theorem NoWriteExposes.init {tr : List Event} {t : Event} (h : NoWriteExposes (tr ++ [t])) : NoWriteExposes tr :=
  fun u hu => h u (by simp [hu])

/-- No sweep so far has passed the snapshot of a transaction that is not yet unregistered. -/
theorem swept_le_snapshot {tr : List Event} {s : State} (h : machine.Execution tr s) (hok : NoWriteExposes tr) :
    ∀ id v, s.snapshot id = some v → highest (boundaries tr) ≤ v := by
  refine (h.admitted (I := fun tr s => NoWriteExposes tr ∧
    ∀ id v, s.snapshot id = some v → highest (boundaries tr) ≤ v) hok ⟨by simp [NoWriteExposes], ?_⟩ ?_).2
  · intro id v hv
    cases hv
  · intro tr t hp ht hw ⟨hcalm, hle⟩
    refine ⟨List.forall_mem_append.mpr ⟨hcalm, List.forall_mem_singleton.mpr hw⟩, fun id v hv => ?_⟩
    have hf := taken_fires ht
    rw [boundaries_concat]
    cases hs : sweepBoundary t with
    | none =>
      rw [Option.toList_none, List.append_nil]
      rcases hf.snapshot_of (registered_of_execution hp) hv with hv | ⟨_, rfl⟩
      · exact hle id v hv
      · exact highest_le_currentVersion hp
    | some b =>
      obtain ⟨p, hl, hb⟩ := sweepBoundary_eq_some.mp hs
      rw [Option.toList_some, highest_concat]
      rcases hf.snapshot_of (registered_of_execution hp) hv with hv | ⟨hread, _⟩
      · exact max_le (hle id v hv) ((covered_of_execution hp hcalm).bounds p b id v hb hv)
      · rw [hl] at hread
        cases hread

theorem database_congr {tr tr' : List Event} {s s' : State} (hlog : writeLog tr' = writeLog tr)
    (hc : s'.clients = s.clients) : database tr' s' = database tr s := by
  rw [database, database, hlog, hc]

theorem database_setClient (tr : List Event) (s : State) (id : Nat) (ph : Option Phase) :
    database tr (s.setClient id ph) = (database tr s).set id (ph.bind Phase.opened) := by
  rw [database, database, Database.set]
  congr
  funext id'
  by_cases he : id' = id
  · subst he
    simp
  · rw [State.setClient_ne _ _ he, Function.update_of_ne he]

/-- The section is invisible and leaves the database alone, or is one step of it. -/
def Refines (tr : List Event) (t : Event) : Prop :=
  visible t = none ∧ database (tr ++ [t]) t.target = database tr t.source ∨
  ∃ a r, visible t = some (a, r) ∧ (database tr t.source).step a = some (database (tr ++ [t]) t.target, r)

namespace Refines
variable {tr : List Event} {t : Event} {s s' : State} {id : Nat} {txn : Transaction}

private theorem log_same (tr : List Event) (h : writeEntry t = none) : writeLog (tr ++ [t]) = writeLog tr := by
  rw [writeLog_concat, h]
  simp

private theorem silent (hv : visible t = none) (hw : writeEntry t = none)
    (hc : ∀ id, (t.target.clients id).bind Phase.opened = (t.source.clients id).bind Phase.opened) :
    Refines tr t := by
  refine .inl ⟨hv, ?_⟩
  rw [database, database, log_same tr hw]
  congr
  funext id
  exact hc id

/-- A section of one transaction that the database does not see. -/
private theorem local_step {a : Action} {r : Option Reply} {ph ph' : Option Phase} (hc : s.clients id = ph)
    (hs : s'.clients = Function.update s.clients id ph') (ho : ph'.bind Phase.opened = ph.bind Phase.opened)
    (hv : visible ⟨s, a, r, s'⟩ = none) (hw : writeEntry ⟨s, a, r, s'⟩ = none) : Refines tr ⟨s, a, r, s'⟩ := by
  refine silent hv hw (fun id' => ?_)
  dsimp only
  rw [hs, Function.update_apply]
  split
  · rename_i he
    rw [he, hc, ho]
  · rfl

private theorem txns_returned (tr : List Event) (hc : s.clients id = some (.returned txn)) (ha : txn.state = .active) :
    (database tr s).txns id = some txn.opened := by
  simp [database, hc, Phase.opened, ha]

private theorem data (hr : Represents (writeLog tr) (highest (boundaries tr)) s.store) (hb : txn.Buffered)
    (hsnap : txn.state = .active → highest (boundaries tr) ≤ txn.snapshotVersion) (c : DataCall)
    (hc : s.clients id = some (.returned txn)) :
    Refines tr ⟨s, .data id c, some (txn.exec s.store c).2,
      s.setClient id (some (.returned (txn.exec s.store c).1))⟩ := by
  by_cases ha : txn.state = .active
  · have hreads : Transaction.ReadsFrom s.store txn.snapshotVersion
        ((writeLog tr).valueAt txn.snapshotVersion) := fun key => hr.getAsOf_observed (hsnap ha) key
    have hactive : (txn.exec s.store c).1.state = .active := (txn.exec_fixed s.store c).2.2.trans ha
    cases hcall : c.isolated id with
    | none =>
      refine local_step hc rfl ?_ (by simp [visible, Action.isolated, hcall]) rfl
      rw [(Transaction.exec_refused s.store hb ha hcall).2]
    | some a =>
      have hbase (k : Key) : contents ((database tr s).batches.take txn.snapshotVersion) k =
          (writeLog tr).valueAt txn.snapshotVersion k.1 := hr.numbered.contents_take _ k
      obtain ⟨o, ho, hstep⟩ := Transaction.exec_isolated hb ha hreads (txns_returned tr hc ha) hbase hcall
      refine .inr ⟨a, o, by simp [visible, Action.isolated, hcall, ho], ?_⟩
      rw [database_setClient, hstep, database_congr (log_same tr rfl) rfl]
      simp [Phase.opened, hactive]
  · have hrefused : (txn.exec s.store c).2.observed.outcome = none := by
      rw [Transaction.exec_inactive ha]
      rfl
    refine local_step hc rfl ?_ ?_ rfl
    · simp [Transaction.exec_inactive ha]
    · simp [visible, Action.isolated, hrefused]

private theorem commit (hr : Represents (writeLog tr) (highest (boundaries tr)) s.store) (hb : txn.Buffered)
    (hsnap : highest (boundaries tr) ≤ txn.snapshotVersion) (want : Bool)
    (hc : s.clients id = some (.returned txn)) (ha : txn.state = .active) :
    Refines tr ⟨s, .commit id want, some (txn.commit s.store want).2.2,
      { s with store := (txn.commit s.store want).1 }.setClient id (some (.ending (txn.commit s.store want).2.1))⟩ := by
  have hdb : (database tr s).batches = (writeLog tr).batches := rfl
  obtain ⟨o, ho, hstep⟩ := hr.commit_isolated hdb hb ha hsnap id want
  refine .inr ⟨.commit id want, o, by simp [visible, Action.isolated, ho], ?_⟩
  rw [database_setClient, Database.step, txns_returned tr hc ha, Option.map_some, hstep, database, database,
    writeLog_concat]
  simp only [writeEntry, hc]
  rfl

private theorem write (hr : Represents (writeLog tr) (highest (boundaries tr)) s.store) (c : WriteCall)
    (hv : ∀ ops n want, c = .applyBatchIfNoConflict ops n want → highest (boundaries tr) ≤ n) :
    Refines tr ⟨s, .write c, some (s.store.write c).2, { s with store := (s.store.write c).1 }⟩ := by
  have hdb : (database tr s).batches = (writeLog tr).batches := rfl
  rcases hr.write_isolated hdb c hv with ⟨hno, hrefused⟩ | ⟨a, o, hcall, ho, hstep⟩
  · refine silent ?_ hno (fun _ => rfl)
    rcases hrefused with hn | hn <;> simp [visible, Action.isolated, hn]
  · refine .inr ⟨a, o, by simp [visible, Action.isolated, hcall, ho], ?_⟩
    rw [hstep, database, database, writeLog_concat]
    rfl

/-- Every section refines the database, while no sweep has passed a snapshot that it validates or reads at. -/
theorem step {a : Action} {r : Option Reply} (h : Fires s a r s') (hi : Registered s) (hb : AllBuffered s)
    (hr : Represents (writeLog tr) (highest (boundaries tr)) s.store)
    (hsnap : ∀ id v, s.snapshot id = some v → highest (boundaries tr) ≤ v)
    (hv : ∀ ops n want, a = .write (.applyBatchIfNoConflict ops n want) → highest (boundaries tr) ≤ n) :
    Refines tr ⟨s, a, r, s'⟩ := by
  have object {id : Nat} {txn : Transaction} (hc : s.clients id = some (.returned txn)) : txn.Buffered :=
    hb id txn (by simp [State.object, hc, Phase.object])
  have active {id : Nat} {txn : Transaction} (hc : s.clients id = some (.returned txn)) (ha : txn.state = .active) :
      highest (boundaries tr) ≤ txn.snapshotVersion := hsnap id _ (by simp [State.snapshot, hc, Phase.snapshot, ha])
  cases h with
  | fetchTxnId =>
    have hn : s.clients s.manager.nextTxnId = none := by
      by_contra hc
      exact absurd (hi.drawn _ hc) (lt_irrefl _)
    exact local_step hn rfl rfl rfl rfl
  | placeholder hc => exact local_step hc rfl rfl rfl rfl
  | @readVersion id hc =>
    refine .inr ⟨.begin id, .done, rfl, ?_⟩
    have hid : (database tr s).txns id = none := by simp [database, hc, Phase.opened]
    have hlen : (database tr s).batches.length = s.store.currentVersion := by
      rw [hr.currentVersion_eq, ← WriteLog.length_batches, database]
    rw [database_setClient, Database.step, hid, database_congr (log_same tr rfl) rfl]
    dsimp only
    rw [hlen]
    rfl
  | refine hc => exact local_step hc rfl rfl rfl rfl
  | data c hc => exact data hr (object hc) (active hc) c hc
  | commit want hc ha => exact commit hr (object hc) (active hc ha) want hc ha
  | commitRefused want hc ha =>
    refine silent rfl ?_ (fun _ => rfl)
    simp [writeEntry, Transaction.commitEntry, hc, Transaction.notActive_failed.not_logged]
  | @abort id txn hc ha =>
    refine .inr ⟨.abort id, .done, ?_, ?_⟩
    · simp [visible, Action.isolated, Transaction.abort, ha, Reply.observed, Observed.outcome]
    · rw [database_setClient, Database.step, txns_returned tr hc ha, database_congr (log_same tr rfl) rfl]
      rfl
  | abortRefused hc ha => exact silent rfl rfl (fun _ => rfl)
  | @destroy id txn hc ha =>
    refine .inr ⟨.abort id, .done, by simp [visible, State.snapshot, hc, Phase.snapshot, ha], ?_⟩
    rw [database_setClient, Database.step, txns_returned tr hc ha, database_congr (log_same tr rfl) rfl]
    rfl
  | destroyFinished hc ha =>
    refine local_step hc rfl ?_ ?_ rfl
    · simp [Phase.opened, ha]
    · simp [visible, State.snapshot, hc, Phase.snapshot, ha]
  | @unregister id txn hc =>
    refine local_step hc rfl ?_ rfl rfl
    simp [Phase.opened, hi.settled id txn hc]
  | unregisterDestroyed hc => exact local_step hc rfl rfl rfl rfl
  | write c => exact write hr c (fun ops n want he => hv ops n want (by rw [he]))
  | runOnce | visitShard | finishScan | collectGarbage | addStats => exact silent rfl rfl (fun _ => rfl)

end Refines

/-- Nothing with a reply is invisible but what is refused. -/
private theorem refused_of_invisible {t : Event} {r : Reply} (h : Fires t.source t.label t.output t.target)
    (hb : AllBuffered t.source) (hv : visible t = none) (hr : t.output = some r) :
    r.status.code = .invalidArgument := by
  obtain ⟨s, a, out, s'⟩ := t
  dsimp only at h hb hr
  subst hr
  have seen (call : Call Key String Nat) (hc : a.isolated = some call)
      (hvis : visible ⟨s, a, some r, s'⟩ =
        a.isolated.bind (fun call => r.observed.outcome.map (fun answer => (call, answer)))) :
      r.status.code = .invalidArgument := by
    rw [hvis, hc, Option.bind_some, Option.map_eq_none_iff] at hv
    exact Observed.outcome_eq_none.mp hv
  generalize hout : some r = out at h
  cases h with
  | @data id txn c hc =>
    obtain rfl := Option.some.inj hout
    cases hcall : c.isolated id with
    | some call => exact seen call hcall rfl
    | none =>
      by_cases ha : txn.state = .active
      · have hbuf : txn.Buffered := hb id txn (by simp [State.object, hc, Phase.object])
        exact (Transaction.exec_refused s.store hbuf ha hcall).1
      · rw [Transaction.exec_inactive ha]
        rfl
  | @commit id txn want hc ha => exact seen (.commit id want) rfl rfl
  | @commitRefused id txn want hc ha => exact seen (.commit id want) rfl rfl
  | @abort id txn hc ha => exact seen (.abort id) rfl rfl
  | @abortRefused id txn hc ha => exact seen (.abort id) rfl rfl
  | write c =>
    obtain rfl := Option.some.inj hout
    cases hcall : c.isolated with
    | some call => exact seen call hcall rfl
    | none => exact s.store.write_refused hcall
  | _ => cases hout

/-- Every interleaving is, for its clients, a run of the database under snapshot
isolation with the same calls and answers in the same order, as long as no write
gets a version while a blind scan exposes somebody. Only refused calls are left out. -/
theorem refines_snapshot_isolation {tr : List Event} {s : State} (h : machine.Execution tr s)
    (hcalm : NoWriteExposes tr) (hval : ValidatesUnswept tr) :
    ∃ tr' db, (SnapshotIsolation.machine Key String Nat).Execution tr' db ∧
      tr'.map (fun t => (t.label, t.output)) = tr.filterMap visible ∧
      (∀ t ∈ tr, visible t = none → ∀ r, t.output = some r → r.status.code = .invalidArgument) ∧
      (∀ k : Key, contents db.batches k = s.store.latestValue k.1) ∧
      ∀ id txn, s.clients id = some (.returned txn) → txn.state = .active → db.txns id = some txn.opened := by
  have hrefines := h.refines (P := fun tr => NoWriteExposes tr ∧ ValidatesUnswept tr)
    (N := SnapshotIsolation.machine Key String Nat) database visible ⟨hcalm, hval⟩
    (fun tr t hok => ⟨hok.1.init, hok.2.init⟩) ?_
  · obtain ⟨tr', hpath, hmap⟩ := hrefines
    have hr := represents_of_execution h
    refine ⟨tr', database tr s, hpath, hmap, fun t ht hv r hout => ?_, fun k => ?_, fun id txn hc ha => ?_⟩
    · obtain ⟨pre, _, _, hp, htk, _⟩ := h.of_mem ht
      exact refused_of_invisible (taken_fires htk) (allBuffered_of_execution hp) hv hout
    · rw [hr.latestValue_eq]
      exact WriteLog.contents_batches _ k
    · simp [database, hc, Phase.opened, ha]
  · intro tr t hp hok ht
    refine Refines.step (taken_fires ht) (registered_of_execution hp) (allBuffered_of_execution hp)
      (represents_of_execution hp) (swept_le_snapshot hp hok.1.init) (fun ops n want he => ?_)
    exact hok.2 tr t [] ops n want rfl he

/-- Runs that write first and collect after expose nobody. -/
private theorem noWriteExposes_append {tr tr' : List Event} {s : State} (h : machine.Execution (tr ++ tr') s)
    (hpass : ∀ t ∈ tr, t.label.pass = none) (hwrite : ∀ t ∈ tr', writeEntry t = none) :
    NoWriteExposes (tr ++ tr') := by
  intro t ht hw
  rcases List.mem_append.mp ht with ht | ht
  · obtain ⟨mid, hfirst, _⟩ := h.split
    obtain ⟨pre, post, rfl, hp, _⟩ := hfirst.of_mem ht
    have hidle : t.source.passes = fun _ => .idle :=
      hp.admitted (A := fun t => t.label.pass = none) (I := fun _ s => s.passes = fun _ => .idle)
        (fun u hu => hpass u (by simp [hu])) rfl (fun _ u _ hu hn hi => ((taken_fires hu).passes_eq hn).trans hi)
    rintro ⟨p, next, id, v, hscan, _⟩
    rw [hidle] at hscan
    cases hscan
  · exact absurd (hwrite t ht) hw

/-- Two transactions write one key, the later commit conflicts, and a pass follows. -/
private def contendedKey : List Action :=
  .write (.put "k" "1") :: beginSections 1 ++ beginSections 2 ++
    [.data 1 (.get "k"), .data 1 (.put "k" "2"), .data 2 (.put "k" "3"), .data 2 (.get ""), .commit 1 true,
      .commit 2 true, .unregister 1, .unregister 2, .runOnce 0] ++ visits 0 16 ++ [.finishScan 0, .collectGarbage 0]

theorem refines_snapshot_isolation_contended_key :
    ∃ tr s tr' db, machine.Execution tr s ∧ boundaries tr = [2] ∧ NoWriteExposes tr ∧
      (SnapshotIsolation.machine Key String Nat).Execution tr' db ∧
      tr'.map (fun t => (t.label, t.output)) = tr.filterMap visible ∧
      tr'.map (fun t => t.output) = [.stamped 1, .done, .done, .found "1", .done, .done, .stamped 2,
        .conflict (some {k | k.1 ∈ ["k"]})] := by
  have h : machine.Execution (machine.trace contendedKey) (machine.final contendedKey) :=
    Machine.scheduled contendedKey (by decide)
  have hlabels := Machine.run_labels (Machine.run_scheduled (M := machine) contendedKey (by decide))
  have hcalm : NoWriteExposes (machine.trace contendedKey) := by
    rw [← List.take_append_drop 15 (machine.trace contendedKey)] at h ⊢
    exact noWriteExposes_append h (by decide) (by decide)
  have hval : ValidatesUnswept (machine.trace contendedKey) := by
    intro pre t post ops n want htr hl
    have hmem : t.label ∈ contendedKey := by
      rw [← hlabels, htr]
      simp
    rw [hl] at hmem
    simp [contendedKey, beginSections, visits] at hmem
  obtain ⟨tr', db, hexec, hmap, _⟩ := refines_snapshot_isolation h hcalm hval
  refine ⟨_, _, tr', db, h, by decide, hcalm, hexec, hmap, ?_⟩
  have houts := congrArg (List.map Prod.snd) hmap
  rw [List.map_map] at houts
  exact houts.trans rfl

end MvccLite.Threads
