import MvccLite.Threads.Boundary

/-! First committer wins. Validation looks at the newest retained entry of a key
only, so it misses a write exactly when a sweep has dropped the key. -/
namespace MvccLite.Threads
open Library VersionStore

/-- Every key written after `v` still has a history to validate against. -/
def Validates (log : WriteLog) (v : Nat) (s : VersionStore) : Prop :=
  ∀ key, (∃ w ∈ log, w.Touches key ∧ v < w.version) → s.history key ≠ []

namespace Validates
variable {log : WriteLog} {b v : Nat} {s : VersionStore}

theorem of_current (h : Represents log b s) : Validates log s.currentVersion s := by
  rintro key ⟨w, hw, _, hlt⟩
  have := (h.numbered.bounds hw).2
  rw [h.currentVersion_eq] at hlt
  omega

theorem writtenSince_iff (h : Represents log b s) (hv : Validates log v s) (key : String) :
    s.writtenSince v key = true ↔ ∃ w ∈ log, w.Touches key ∧ v < w.version := by
  rw [VersionStore.writtenSince_iff, ← h.numbered.touched_iff]
  rcases (h.trimmed key).getLast_eq with he | ⟨hn, _⟩
  · rw [he]
  · constructor
    · simp [hn]
    · intro ht
      exact absurd hn (hv key ((h.numbered.touched_iff v key).mp ht))

theorem append (hv : Validates log v s) (ops : List WriteOp) :
    Validates (log ++ [⟨s.nextVersion, ops⟩]) v (s.append ops) := by
  rintro key ⟨w, hw, ht, hlt⟩
  rw [history_append]
  rcases List.mem_append.mp hw with hw | hw
  · exact fun hnil => hv key ⟨w, hw, ht, hlt⟩ (List.append_eq_nil_iff.mp hnil).1
  · obtain rfl := List.mem_singleton.mp hw
    obtain ⟨op, hop, hk⟩ := ht
    exact fun hnil => entriesFor_eq_nil.mp (List.append_eq_nil_iff.mp hnil).2 op hop hk

/-- A sweep keeps validation exact when it spares the tombstones newer than `v`. -/
theorem collect (h : Represents log b s) (hv : Validates log v s) {c : Nat}
    (hspare : ∀ key, ∀ e ∈ (s.history key).getLast?, e.Dead → v < e.version → c < e.version) :
    Validates log v (s.collectGarbage c).1 := by
  intro key ht hnil
  rcases history_collectGarbage_eq_nil (h.sorted key) hnil with he | ⟨e, he, hd, hle⟩
  · exact hv key ht he
  · obtain ⟨e', he', hlt⟩ := (VersionStore.writtenSince_iff s v key).mp ((writtenSince_iff h hv key).mpr ht)
    obtain rfl : e = e' := Option.some.inj (he.symm.trans he')
    exact absurd (hspare key e he hd hlt) (by omega)

end Validates

/-- No sweep at `b` meets a key whose newest entry is a tombstone at or below `b`
and above the snapshot of a transaction that is not yet unregistered. -/
def SparesTombstones (tr : List Event) : Prop :=
  ∀ t ∈ tr, ∀ b, sweepBoundary t = some b → ∀ id v, t.source.snapshot id = some v →
    ∀ key, ∀ e ∈ (t.source.store.history key).getLast?, e.Dead → v < e.version → b < e.version

theorem validates_of_execution {tr : List Event} {s : State} (h : machine.Execution tr s)
    (hok : SparesTombstones tr) :
    ∀ id v, s.snapshot id = some v → Validates (writeLog tr) v s.store := by
  refine h.admitted (I := fun tr s => ∀ id v, s.snapshot id = some v → Validates (writeLog tr) v s.store)
    hok (fun _ _ hv => by cases hv) ?_
  intro tr t hp ht hspare hval id v hv
  have hf := taken_fires ht
  have hr := represents_of_execution hp
  have hsrc : Validates (writeLog tr) v t.source.store := by
    rcases hf.snapshot_of (registered_of_execution hp) hv with hv | ⟨_, rfl⟩
    · exact hval id v hv
    · exact .of_current hr
  rw [writeLog_concat]
  rcases hf.store_cases (allBuffered_of_execution hp) with
    ⟨he, hw, _⟩ | ⟨ops, he, _, hw, _⟩ | ⟨p, b, ha, _, he, hw, hs⟩
  · rw [hw, he]
    simpa using hsrc
  · rw [hw, he]
    exact hsrc.append ops
  · rw [hw, he]
    have hold : t.source.snapshot id = some v := by
      rcases hf.snapshot_of (registered_of_execution hp) hv with hv | ⟨hread, _⟩
      · exact hv
      · rw [ha] at hread
        cases hread
    simpa using hsrc.collect hr (hspare b hs id v hold)

/-- Whenever a transaction with snapshot `s` commits a key at version `c`, no
other successful write to the key has a version strictly between. -/
def NoLostUpdate (tr : List Event) : Prop :=
  ∀ t ∈ tr, ∀ id want txn r c key, t.label = .commit id want → t.source.clients id = some (.returned txn) →
    t.output = some r → r.status.code = .ok → r.version = some c → key ∈ txn.writeSet →
    ∀ w ∈ writeLog tr, w.Touches key → ¬ (txn.snapshotVersion < w.version ∧ w.version < c)

/-- No update is lost in a run whose sweeps spare the tombstones that somebody
still has to validate against. -/
theorem no_lost_update {tr : List Event} {s : State} (h : machine.Execution tr s)
    (hok : SparesTombstones tr) : NoLostUpdate tr := by
  intro t ht id want txn r c key hl hc hout hcode hver hkey w hw htouch hbetween
  obtain ⟨pre, post, rfl, hpre, htaken, _⟩ := h.of_mem ht
  have hf := taken_fires htaken
  rw [hl, hout] at hf
  obtain ⟨op, hop, rfl⟩ := txn.mem_writeSet.mp hkey
  have hne : txn.writeSet.entries ≠ [] := fun he => by simp [txn.ops_eq_nil.mpr he] at hop
  obtain ⟨ha, rfl, _, hvalid⟩ := hf.commit_ok hc (allBuffered_of_execution hpre) hcode hne
  have hr := represents_of_execution hpre
  obtain rfl : t.source.store.nextVersion = c := Option.some.inj hver
  have hearlier : w ∈ writeLog pre := by
    have hnum := (represents_of_execution h).numbered
    rw [writeLog, List.filterMap_append] at hw hnum
    refine hnum.mem_left hw ?_
    have := hr.next
    have : (writeLog pre).length = (List.filterMap writeEntry pre).length := rfl
    omega
  have hsnap : t.source.snapshot id = some txn.snapshotVersion := by
    simp [State.snapshot, hc, Phase.snapshot, ha]
  have hval := validates_of_execution hpre (fun u hu => hok u (by simp [hu])) id _ hsnap
  have hsince := (Validates.writtenSince_iff hr hval op.key).mpr ⟨w, hearlier, htouch, hbetween.1⟩
  rw [hvalid _ hop] at hsince
  cases hsince

/-- A key is deleted, swept away and written again by a transaction that saw the delete. -/
private def rewrittenKey : List Action :=
  .write (.put "k" "1") :: .write (.delete "k") :: beginSections 1 ++ .runOnce 0 :: visits 0 16 ++
    [.finishScan 0, .collectGarbage 0, .data 1 (.put "k" "2"), .commit 1 true]

theorem no_lost_update_rewritten_key :
    ∃ tr s, machine.Execution tr s ∧ boundaries tr = [2] ∧ s.store.currentVersion = 3 ∧ SparesTombstones tr ∧
      NoLostUpdate tr := by
  obtain ⟨tr, s, h, hb, hv, hsweeps⟩ : ∃ tr s, machine.Execution tr s ∧ boundaries tr = [2] ∧
      s.store.currentVersion = 3 ∧ ∀ t ∈ tr, sweepBoundary t = none ∨ sweepBoundary t = some 2 ∧
        t.source.manager.nextTxnId = 2 ∧ t.source.snapshot 0 = none ∧ t.source.snapshot 1 = some 2 :=
    ⟨_, _, Machine.scheduled rewrittenKey (by decide), by decide, by decide, by decide⟩
  have hok : SparesTombstones tr := by
    intro t ht b hs id v hsnap key e he hd hlt
    obtain ⟨pre, _, _, hpre, _⟩ := h.of_mem ht
    obtain hno | ⟨hsome, hnext, h0, h1⟩ := hsweeps t ht
    · rw [hno] at hs
      cases hs
    · obtain rfl : 2 = b := Option.some.inj (hsome.symm.trans hs)
      have hid : id < 2 := hnext ▸ (registered_of_execution hpre).drawn id (fun hc => by
        simp [State.snapshot, hc] at hsnap)
      obtain rfl | rfl : id = 0 ∨ id = 1 := by omega
      · simp [h0] at hsnap
      · obtain rfl : 2 = v := Option.some.inj (h1.symm.trans hsnap)
        exact hlt
  exact ⟨tr, s, h, hb, hv, hok, no_lost_update h hok⟩

/-- Transaction 1 begins behind a blind scan; a put and a delete of the key follow,
the scan ends above both and its sweep drops the key. -/
private def droppedKey : List Action :=
  .runOnce 0 :: visits 0 2 ++ beginSections 1 ++ .write (.put "k" "1") :: .write (.delete "k") ::
    visits 0 14 ++ [.finishScan 0, .collectGarbage 0, .data 1 (.put "k" "2")]

theorem swept_delete_is_lost : ¬ ∀ tr s, machine.Execution tr s → NoLostUpdate tr := by
  intro hall
  obtain ⟨tr, s, txn, hpre, hlog, hc, ha, hsnap, hkey, hreply⟩ : ∃ tr s txn, machine.Execution tr s ∧
      ⟨2, [⟨"k", none⟩]⟩ ∈ writeLog tr ∧ s.clients 1 = some (.returned txn) ∧ txn.state = .active ∧
      txn.snapshotVersion = 0 ∧ "k" ∈ txn.writeSet ∧
      (txn.commit s.store true).2.2 = { status := .ok, version := some 3 } :=
    ⟨_, _, _, Machine.scheduled droppedKey (by decide), by decide, rfl, by decide, by decide, by decide,
      by decide⟩
  have hfire := Fires.commit true hc ha
  rw [hreply] at hfire
  have hlost := hall _ _ (.snoc hpre (fires_taken hfire)) _ (List.mem_append_right _ (List.mem_singleton_self _))
    1 true txn _ 3 "k" rfl hc rfl rfl rfl hkey ⟨2, [⟨"k", none⟩]⟩
  rw [hsnap] at hlost
  refine hlost ?_ ⟨⟨"k", none⟩, by simp, rfl⟩ (by decide)
  rw [writeLog_concat]
  exact List.mem_append_left _ hlog

end MvccLite.Threads
