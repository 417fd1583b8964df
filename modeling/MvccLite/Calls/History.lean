import MvccLite.Calls.Sections
import MvccLite.Threads.Guard

/-! What a run of calls leaves behind: the log that the store replays, and for
each active transaction the moment it began and the room below its snapshot. -/
namespace MvccLite.Calls
open Library

theorem represents_of_execution {tr : List Event} {s : Sys} (h : machine.Execution tr s) :
    Represents (callLog tr) (highest (passBoundaries tr)) s.store := by
  obtain ⟨tr', hex, hlog, hbs⟩ := sections_of_execution h
  rw [← hlog, ← hbs]
  exact Threads.represents_of_execution hex

theorem highest_le_currentVersion {tr : List Event} {s : Sys} (h : machine.Execution tr s) :
    highest (passBoundaries tr) ≤ s.store.currentVersion := by
  obtain ⟨tr', hex, _, hbs⟩ := sections_of_execution h
  rw [← hbs]
  exact Threads.highest_le_currentVersion hex

theorem registered_of_execution {tr : List Event} {s : Sys} (h : machine.Execution tr s) :
    Threads.Registered s.threads := by
  obtain ⟨tr', hex, _⟩ := sections_of_execution h
  exact Threads.registered_of_execution hex

theorem quiet_threads (s : Sys) : Threads.Quiet s.threads := by
  intro id ph hc
  obtain ⟨txn, _, rfl⟩ := Option.map_eq_some_iff.mp hc
  exact ⟨txn, rfl⟩

section objects
variable {tr : List Event} {s : Sys} {id : Nat} {txn : Transaction}

theorem drawn_of_execution (h : machine.Execution tr s) (ho : s.txns id = some txn) :
    id < s.manager.nextTxnId :=
  (registered_of_execution h).drawn id (by simp [Sys.threads, ho])

theorem buffered_of_execution (h : machine.Execution tr s) (ho : s.txns id = some txn) : txn.Buffered := by
  obtain ⟨tr', hex, _⟩ := sections_of_execution h
  apply Threads.allBuffered_of_execution hex id
  simp [Threads.State.object, Sys.threads, ho, Threads.Phase.object]

theorem snapshot_le_of_execution (h : machine.Execution tr s) (ho : s.txns id = some txn)
    (ha : txn.state = .active) : txn.snapshotVersion ≤ s.store.currentVersion := by
  obtain ⟨tr', hex, _⟩ := sections_of_execution h
  apply (Threads.bounded_of_execution hex).snapshots id
  simp [Threads.State.snapshot, Sys.threads, ho, Threads.Phase.snapshot, ha]

/-- The boundary of a pass is at or below every active snapshot. -/
theorem oldestActiveSnapshot_le (h : machine.Execution tr s) (ho : s.txns id = some txn)
    (ha : txn.state = .active) : s.manager.oldestActiveSnapshot s.store ≤ txn.snapshotVersion := by
  have hold := Threads.oldest_quiet (registered_of_execution h) (quiet_threads s)
  have hmem : txn.snapshotVersion ∈ s.threads.activeSnapshots := by
    apply List.mem_filterMap.mpr
    exact ⟨id, List.mem_range.mpr (drawn_of_execution h ho), by simp [Sys.threads, ho, ha]⟩
  change s.manager.oldestActiveSnapshot s.store = _ at hold
  rw [hold]
  cases hm : s.threads.activeSnapshots.min? with
  | none =>
    rw [List.min?_eq_none_iff.mp hm] at hmem
    simp at hmem
  | some m => exact (List.min?_eq_some_iff.mp hm).2 _ hmem

end objects

section objects_after
variable {t : Event} {id : Nat} {txn' : Transaction}

private theorem setTxn_cases {s : Sys} {id id' : Nat} {txn : Option Transaction} {txn' : Transaction}
    (h : (s.setTxn id txn).txns id' = some txn') :
    s.txns id' = some txn' ∧ id' ≠ id ∨ id' = id ∧ txn = some txn' := by
  by_cases he : id' = id
  · subst he
    exact .inr ⟨rfl, by simpa [Sys.setTxn] using h⟩
  · exact .inl ⟨by simpa [Sys.setTxn, he] using h, he⟩

/-- An active object has just begun, has just answered a data call, or was there. -/
theorem active_of (h : machine.Taken t) (ho : t.target.txns id = some txn') (ha : txn'.state = .active) :
    (t.label = .begin ∧ t.output = .began id t.source.store.currentVersion ∧
      id = t.source.manager.nextTxnId ∧ txn' = { txnId := id, snapshotVersion := t.source.store.currentVersion }) ∨
    ∃ txn, t.source.txns id = some txn ∧ txn.state = .active ∧
      ((∃ c, t.label = .data id c ∧ t.output = .reply (txn.exec t.source.store c).2 ∧
        txn' = (txn.exec t.source.store c).1) ∨ (∀ c, t.label ≠ .data id c) ∧ txn' = txn) := by
  obtain ⟨s, c, r, s'⟩ := t
  change s.step c = some (s', r) at h
  have kept (hs : s.txns id = some txn') (hn : ∀ d, c ≠ .data id d) :
      ∃ txn, s.txns id = some txn ∧ txn.state = .active ∧
        ((∃ d, c = .data id d ∧ r = .reply (txn.exec s.store d).2 ∧ txn' = (txn.exec s.store d).1) ∨
          (∀ d, c ≠ .data id d) ∧ txn' = txn) := ⟨txn', hs, ha, .inr ⟨hn, rfl⟩⟩
  cases c with
  | begin =>
    obtain ⟨rfl, rfl⟩ := Prod.mk.inj (Option.some.inj h)
    rcases setTxn_cases ho with ⟨hs, _⟩ | ⟨rfl, he⟩
    · exact .inr (kept hs (by simp))
    · exact .inl ⟨rfl, rfl, rfl, (Option.some.inj he).symm⟩
  | data id' d =>
    obtain ⟨txn, htxn, heq⟩ := Option.map_eq_some_iff.mp h
    obtain ⟨rfl, rfl⟩ := Prod.mk.inj heq
    rcases setTxn_cases ho with ⟨hs, hne⟩ | ⟨rfl, he⟩
    · exact .inr (kept hs (by simp [Ne.symm hne]))
    · obtain rfl := Option.some.inj he
      exact .inr ⟨txn, htxn, (txn.exec_fixed s.store d).2.2 ▸ ha, .inl ⟨d, rfl, rfl, rfl⟩⟩
  | commit id' want =>
    obtain ⟨txn, htxn, heq⟩ := Option.map_eq_some_iff.mp h
    obtain ⟨rfl, rfl⟩ := Prod.mk.inj heq
    rcases setTxn_cases ho with ⟨hs, _⟩ | ⟨rfl, he⟩
    · exact .inr (kept hs (by simp))
    · obtain rfl := Option.some.inj he
      exact absurd ha (txn.commit_state s.store want)
  | abort id' =>
    obtain ⟨txn, htxn, heq⟩ := Option.map_eq_some_iff.mp h
    obtain ⟨rfl, rfl⟩ := Prod.mk.inj heq
    rcases setTxn_cases ho with ⟨hs, _⟩ | ⟨rfl, he⟩
    · exact .inr (kept hs (by simp))
    · obtain rfl := Option.some.inj he
      exact absurd ha txn.abort_state
  | destroy id' =>
    obtain ⟨txn, htxn, heq⟩ := Option.map_eq_some_iff.mp h
    obtain ⟨rfl, rfl⟩ := Prod.mk.inj heq
    rcases setTxn_cases ho with ⟨hs, _⟩ | ⟨rfl, he⟩
    · exact .inr (kept hs (by simp))
    · cases he
  | write | get | getAsOf | currentVersion | keyCount | versionCount | oldestActiveSnapshot
  | activeTransactionCount | runOnce =>
    obtain ⟨rfl, rfl⟩ := Prod.mk.inj (Option.some.inj h)
    exact .inr (kept ho (by simp))

/-- It has just begun at the current version, or it was active before at the same snapshot. -/
theorem active_since (h : machine.Taken t) (ho : t.target.txns id = some txn') (ha : txn'.state = .active) :
    (t.label = .begin ∧ t.output = .began id txn'.snapshotVersion ∧ id = t.source.manager.nextTxnId ∧
      txn'.snapshotVersion = t.source.store.currentVersion) ∨
    ∃ txn, t.source.txns id = some txn ∧ txn.state = .active ∧ txn'.snapshotVersion = txn.snapshotVersion := by
  rcases active_of h ho ha with ⟨hl, hout, hid, rfl⟩ | ⟨txn, hs, hact, ⟨c, _, _, rfl⟩ | ⟨_, rfl⟩⟩
  · exact .inl ⟨hl, hout, hid, rfl⟩
  · exact .inr ⟨txn, hs, hact, (txn.exec_fixed _ c).2.1⟩
  · exact .inr ⟨_, hs, hact, rfl⟩

end objects_after

theorem nextTxnId_le {t : Event} (h : machine.Taken t) :
    t.source.manager.nextTxnId ≤ t.target.manager.nextTxnId := by
  obtain ⟨s, c, r, s'⟩ := t
  change s.step c = some (s', r) at h
  have released (txn : Transaction) : (s.released txn).nextTxnId = s.manager.nextTxnId := by
    unfold Sys.released
    split <;> rfl
  cases c with
  | begin =>
    obtain ⟨rfl, rfl⟩ := Prod.mk.inj (Option.some.inj h)
    exact Nat.le_succ _
  | data id d =>
    obtain ⟨txn, _, heq⟩ := Option.map_eq_some_iff.mp h
    obtain ⟨rfl, rfl⟩ := Prod.mk.inj heq
    exact le_rfl
  | commit | abort | destroy =>
    obtain ⟨txn, _, heq⟩ := Option.map_eq_some_iff.mp h
    obtain ⟨rfl, rfl⟩ := Prod.mk.inj heq
    exact (released txn).ge
  | write | get | getAsOf | currentVersion | keyCount | versionCount | oldestActiveSnapshot
  | activeTransactionCount | runOnce =>
    obtain ⟨rfl, rfl⟩ := Prod.mk.inj (Option.some.inj h)
    exact le_rfl

theorem nextTxnId_mono {s s' : Sys} {tr : List Event} (h : machine.Path s tr s') :
    s.manager.nextTxnId ≤ s'.manager.nextTxnId :=
  h.invariant (I := fun _ s' => s.manager.nextTxnId ≤ s'.manager.nextTxnId) le_rfl
    (fun _ _ _ ht hle => hle.trans (nextTxnId_le ht))

theorem commit_taken {t : Event} (h : machine.Taken t) {id : Nat} {want : Bool} (hl : t.label = .commit id want) :
    ∃ txn, t.source.txns id = some txn ∧ t.target = (t.source.commit id txn want).1 ∧
      t.output = (t.source.commit id txn want).2 := by
  unfold Machine.Taken at h
  rw [hl] at h
  obtain ⟨txn, htxn, heq⟩ := Option.map_eq_some_iff.mp h
  obtain ⟨ht, ho⟩ := Prod.mk.inj heq
  exact ⟨txn, htxn, ht.symm, ho.symm⟩

/-- No pass so far went above the snapshot of an active transaction. -/
theorem swept_of_execution {tr : List Event} {s : Sys} (h : machine.Execution tr s) :
    ∀ id txn, s.txns id = some txn → txn.state = .active → highest (passBoundaries tr) ≤ txn.snapshotVersion := by
  refine h.invariant (I := fun tr s => ∀ id txn, s.txns id = some txn → txn.state = .active →
    highest (passBoundaries tr) ≤ txn.snapshotVersion) (fun _ _ ho => by cases ho) ?_
  intro tr t hp ht hswept id txn' ho ha
  rcases active_since ht ho ha with ⟨hl, _, _, hv⟩ | ⟨txn, hs, hact, hsame⟩
  · rw [passBoundaries_concat, passBoundary, hl, hv]
    simpa using highest_le_currentVersion hp
  · rw [passBoundaries_concat, hsame]
    cases hb : passBoundary t with
    | none => simpa using hswept id txn hs hact
    | some b =>
      have hle : b ≤ txn.snapshotVersion := by
        unfold passBoundary at hb
        split at hb
        · obtain rfl := Option.some.inj hb
          exact oldestActiveSnapshot_le hp hs hact
        · cases hb
      simpa using ⟨hswept id txn hs hact, hle⟩

end MvccLite.Calls
