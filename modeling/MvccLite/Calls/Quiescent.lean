import MvccLite.Calls.History
import MvccLite.Store.Sweeps

/-! A pass that meets no active transaction sweeps at the current version and
leaves one live entry for each visible key. -/
namespace MvccLite.Calls
open Library VersionStore

/-- With nobody active the scan finds nothing and the boundary is the current version. -/
theorem oldest_of_quiescent {tr : List Event} {s : Sys} (h : machine.Execution tr s)
    (hq : ∀ id txn, s.txns id = some txn → txn.state ≠ .active) :
    s.manager.oldestActiveSnapshot s.store = s.store.currentVersion := by
  have hold := Threads.oldest_quiet (registered_of_execution h) (quiet_threads s)
  have hnone : s.threads.activeSnapshots = [] := by
    refine List.filterMap_eq_nil_iff.mpr (fun id _ => ?_)
    cases ho : s.txns id with
    | none => simp [Sys.threads, ho]
    | some txn => simp [Sys.threads, ho, hq id txn ho]
  rw [hnone] at hold
  exact hold

/-- What a sweep at the current version makes of a stored history. -/
private theorem swept_history {log : WriteLog} {b : Nat} {s : VersionStore} (hr : Represents log b s) {key : String}
    {hist : List VersionedValue} (hl : s.table.lookup key = some hist) :
    ∃ e, hist.getLast? = some e ∧ (s.collectGarbage s.currentVersion).1.table.lookup key =
      if e.value = none then none else some [e] := by
  have hh : s.history key = hist := by rw [history, hl]; rfl
  have hle : ∀ e ∈ hist, e.version ≤ s.currentVersion := by
    intro e he
    obtain ⟨w, hw, hv, _⟩ := WriteLog.mem_history.mp ((hr.suffix key).subset (hh ▸ he))
    rw [hv, hr.currentVersion_eq]
    exact (hr.numbered.bounds hw).2
  obtain ⟨e, he⟩ := Option.ne_none_iff_exists'.mp
    (fun hn => hr.present key hist hl (List.getLast?_eq_none_iff.mp hn))
  have hret : retained VersionedValue.version s.currentVersion hist = [e] := by
    have happ := retained_append hle (fun x hx => absurd hx List.not_mem_nil)
    rwa [List.append_nil, List.append_nil, he] at happ
  refine ⟨e, he, ?_⟩
  rw [lookup_collectGarbage, hl, Option.bind_some]
  rcases collectHistory_cases (hh ▸ hr.sorted key) s.currentVersion with ⟨⟨e', he', hd, _⟩, hc⟩ | ⟨hn, hc⟩
  · obtain rfl : e = e' := (List.cons.inj (hret.symm.trans he')).1
    rw [hc, if_pos (show e.value = none from hd)]
  · rw [hc, hret, if_neg]
    exact fun hd => hn ⟨e, hret, hd, hle e (List.mem_of_getLast? he)⟩

/-- After a pass with no transaction active, the keys of the table are exactly
those that a latest read found, each with the one entry that it read. -/
theorem quiescent_pass_leaves_no_garbage {tr : List Event} {s : Sys} (h : machine.Execution tr s)
    (hq : ∀ id txn, s.txns id = some txn → txn.state ≠ .active) :
    ∃ s' stats, machine.step s .runOnce = some (s', .stats stats) ∧
      ∀ key, (key ∈ s'.store.table ↔ (s.store.get key).status.code = .ok) ∧
        ∀ hist, s'.store.table.lookup key = some hist → ∃ version value, hist = [⟨version, some value⟩] ∧
          (s.store.get key).value = some value ∧ (s.store.get key).version = some version := by
  refine ⟨s.runOnce.1, _, rfl, fun key => ?_⟩
  have hr := represents_of_execution h
  have hstore : s.runOnce.1.store = (s.store.collectGarbage s.store.currentVersion).1 := by
    simp only [Sys.runOnce, oldest_of_quiescent h hq]
  have hget := s.store.get_observed key
  rw [hstore, ← AList.lookup_isSome]
  cases hl : s.store.table.lookup key with
  | none =>
    have hgone : (s.store.collectGarbage s.store.currentVersion).1.table.lookup key = none := by
      rw [lookup_collectGarbage, hl]
      rfl
    have hcode : (s.store.get key).status.code ≠ .ok := by
      rw [hr.history_eq_nil.mpr hl] at hget
      split at hget
      · exact Reply.failed_of_observed hget (by simp [Observed.refused])
      · exact Reply.failed_of_observed hget (by simp [Observed.ofEntry])
    rw [hgone]
    exact ⟨by simp [hcode], fun hist hn => by cases hn⟩
  | some hist =>
    have hk : key ≠ "" := by
      rintro rfl
      rw [hr.lookup_emptyKey] at hl
      cases hl
    have hh : s.store.history key = hist := by rw [history, hl]; rfl
    obtain ⟨⟨version, value⟩, he, hswept⟩ := swept_history hr hl
    rw [hh, he, if_neg hk] at hget
    rw [hswept]
    cases value with
    | none =>
      have hcode : (s.store.get key).status.code ≠ .ok :=
        Reply.failed_of_observed hget (by simp [Observed.ofEntry])
      exact ⟨by simp [hcode], fun hist hn => by simp at hn⟩
    | some value =>
      obtain ⟨hcode, hvalue, hversion, _⟩ := Observed.mk.inj hget
      refine ⟨by simp [hcode], fun hist hn => ?_⟩
      obtain rfl : [⟨version, some value⟩] = hist := by simpa using hn
      exact ⟨version, value, rfl, hvalue, hversion⟩

/-- Every way to end a transaction, a key put and deleted by one of them, a batch that
writes a key twice, and an earlier pass. -/
private def settledRun : List Call :=
  [.write (.applyBatch [⟨"a", some "1"⟩, ⟨"a", some "2"⟩]), .begin, .data 1 (.put "b" "1"), .data 1 (.delete "b"),
    .begin, .data 2 (.put "a" "3"), .runOnce, .commit 1 false, .destroy 1, .write (.put "a" "4"), .commit 2 true,
    .begin, .destroy 3, .begin, .abort 4]

theorem quiescent_pass_leaves_no_garbage_settled :
    ∃ tr s, machine.Execution tr s ∧ (∀ id txn, s.txns id = some txn → txn.state ≠ .active) ∧
      s.store.keyCount = 2 ∧ ∃ s' stats, machine.step s .runOnce = some (s', .stats stats) ∧
        "a" ∈ s'.store.table ∧ "b" ∉ s'.store.table := by
  have h : machine.Execution (machine.trace settledRun) (machine.final settledRun) :=
    Machine.scheduled settledRun (by decide)
  have hq : ∀ id txn, (machine.final settledRun).txns id = some txn → txn.state ≠ .active := by
    intro id txn ho ha
    have hid : id < 5 := drawn_of_execution h ho
    have hall : ∀ id < 5, ((machine.final settledRun).txns id).map Transaction.state ≠ some .active := by decide
    exact hall id hid (by rw [ho, Option.map_some, ha])
  obtain ⟨s', stats, hstep, hkeys⟩ := quiescent_pass_leaves_no_garbage h hq
  refine ⟨_, _, h, hq, by decide, s', stats, hstep, (hkeys "a").1.mpr (by decide), ?_⟩
  exact fun hb => absurd ((hkeys "b").1.mp hb) (by decide)

end MvccLite.Calls
