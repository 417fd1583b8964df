import MvccLite.Threads.Boundary
import MvccLite.Txn.View

/-! What holds of reads and commits in every interleaving, also where a sweep has
passed the snapshot of a transaction: a read may lose a value but never shows a
wrong one, and a commit may miss a delete but never a value. -/
namespace MvccLite.Threads
open Library VersionStore

/-- The store answers reads at any snapshot from its own histories. -/
theorem readsFrom_visible {log : WriteLog} {b : Nat} {s : VersionStore} (h : Represents log b s) (v : Nat) :
    Transaction.ReadsFrom s v (s.visibleAsOf v) := by
  intro key
  rw [VersionStore.getAsOf_observed s key v (h.sorted key)]

theorem Fires.data_reply {s s' : State} {id : Nat} {c : DataCall} {r : Reply} {txn : Transaction}
    (h : Fires s (.data id c) (some r) s') (hc : s.clients id = some (.returned txn)) :
    r = (txn.exec s.store c).2 := by
  generalize hout : some r = out at h
  cases h with
  | @data _ txn' _ hc' =>
    obtain rfl : txn = txn' := by simpa [hc] using hc'
    exact Option.some.inj hout

private theorem Fires.commit_reply {s s' : State} {id : Nat} {want : Bool} {r : Reply} {txn : Transaction}
    (h : Fires s (.commit id want) (some r) s') (hc : s.clients id = some (.returned txn))
    (ha : txn.state = .active) : r = (txn.commit s.store want).2.2 := by
  generalize hout : some r = out at h
  cases h with
  | @commit _ txn' _ hc' =>
    obtain rfl : txn = txn' := by simpa [hc] using hc'
    exact Option.some.inj hout
  | @commitRefused _ txn' _ hc' hna =>
    obtain rfl : txn = txn' := by simpa [hc] using hc'
    exact absurd ha hna

/-- Every data call on an active transaction is answered from its own writes over
contents that differ from the snapshot only in keys that are missing, and in
those only once a sweep has passed the snapshot. -/
theorem reads_right_or_missing {pre post : List Event} {t : Event} {s : State} {id : Nat} {c : DataCall}
    {txn : Transaction} {r : Reply} (h : machine.Execution (pre ++ t :: post) s) (hl : t.label = .data id c)
    (hc : t.source.clients id = some (.returned txn)) (ha : txn.state = .active) (hr : t.output = some r) :
    ∃ base : Contents, r.observed = (WriteSet.exec base txn.writeSet c).2 ∧
      ∀ key, base key = (writeLog pre).valueAt txn.snapshotVersion key ∨
        base key = none ∧ txn.snapshotVersion < highest (boundaries pre) := by
  obtain ⟨hpre, ht, _⟩ := h.around
  have hrep := represents_of_execution hpre
  have hbuf : txn.Buffered := allBuffered_of_execution hpre id txn (by simp [State.object, hc, Phase.object])
  have hf := taken_fires ht
  rw [hl, hr] at hf
  refine ⟨t.source.store.visibleAsOf txn.snapshotVersion, ?_, hrep.visibleAsOf_cases _⟩
  rw [hf.data_reply hc]
  exact (Transaction.exec_buffer hbuf ha (readsFrom_visible hrep _) c).2

/-- Transaction 1 begins behind a blind scan, its key is overwritten, and the sweep takes the value it should see. -/
private def sweptValue : List Action :=
  .write (.put "k" "1") :: .runOnce 0 :: visits 0 2 ++ beginSections 1 ++ .write (.put "k" "2") :: visits 0 14 ++
    [.finishScan 0, .collectGarbage 0]

theorem reads_right_or_missing_swept_value :
    ∃ pre t s r, machine.Execution (pre ++ [t]) s ∧ t.label = .data 1 (.get "k") ∧ t.output = some r ∧
      WriteLog.valueAt (writeLog pre) 1 "k" = some "1" ∧ r.status.code = .notFound ∧ boundaries pre = [2] ∧
      ∃ base : Contents, r.observed = (WriteSet.exec base ∅ (.get "k")).2 ∧ base "k" = none := by
  obtain ⟨pre, s, txn, hpre, hc, ha, hsnap, hws, hval, hcode, hb⟩ : ∃ pre s txn, machine.Execution pre s ∧
      s.clients 1 = some (.returned txn) ∧ txn.state = .active ∧ txn.snapshotVersion = 1 ∧ txn.writeSet = ∅ ∧
      WriteLog.valueAt (writeLog pre) 1 "k" = some "1" ∧ (txn.get s.store "k").status.code = .notFound ∧
      boundaries pre = [2] :=
    ⟨_, _, _, Machine.scheduled sweptValue (by decide), rfl, by decide, by decide, rfl, by decide, by decide, by decide⟩
  have h := Machine.Path.snoc hpre (fires_taken (Fires.data (.get "k") hc))
  obtain ⟨base, hobs, hbase⟩ := reads_right_or_missing h rfl hc ha rfl
  refine ⟨pre, _, _, _, h, rfl, rfl, hval, hcode, hb, base, by rw [← hws]; exact hobs, ?_⟩
  rcases hbase "k" with hk | ⟨hk, _⟩
  · rw [hsnap, hval] at hk
    have := congrArg Observed.code hobs
    simp [WriteSet.exec, WriteSet.overlay, hws, hk, Observed.ofValue, Reply.observed, Transaction.exec, hcode] at this
  · exact hk

/-- A key that validation passes has not been written since the snapshot, or its last
write is a delete that a sweep has taken. -/
theorem validated_cases {log : WriteLog} {b v : Nat} {s : VersionStore} (h : Represents log b s) {key : String}
    (hv : s.writtenSince v key = false) :
    (∀ w ∈ log, w.Touches key → w.version ≤ v) ∨
      ∃ e ∈ (log.history key).getLast?, e.Dead ∧ v < e.version ∧ e.version ≤ b := by
  have hno : ¬ ∃ e ∈ (s.history key).getLast?, v < e.version := by
    rw [← VersionStore.writtenSince_iff, hv]
    exact Bool.false_ne_true
  have hold : (¬ ∃ e ∈ (log.history key).getLast?, v < e.version) → ∀ w ∈ log, w.Touches key → w.version ≤ v := by
    intro hn w hw ht
    by_contra hlt
    exact hn ((h.numbered.touched_iff v key).mpr ⟨w, hw, ht, not_le.mp hlt⟩)
  rcases (h.trimmed key).getLast_eq with he | ⟨_, e, he, hd, hle⟩
  · rw [he] at hno
    exact .inl (hold hno)
  · by_cases hlt : v < e.version
    · exact .inr ⟨e, he, hd, hlt, hle⟩
    · refine .inl (hold ?_)
      rintro ⟨e', he', hlt'⟩
      obtain rfl : e = e' := Option.some.inj (he.symm.trans he')
      exact hlt hlt'

/-- In every interleaving: a commit conflicts only on keys that were written after
its snapshot, and one that succeeds over such a write misses a delete, which a
sweep has taken and nothing has followed. -/
theorem commits_miss_only_deletes {pre post : List Event} {t : Event} {s : State} {id : Nat} {want : Bool}
    {txn : Transaction} {r : Reply} (h : machine.Execution (pre ++ t :: post) s) (hl : t.label = .commit id want)
    (hc : t.source.clients id = some (.returned txn)) (ha : txn.state = .active) (hr : t.output = some r) :
    (r.status.code = .conflict → ∃ key ∈ txn.writeSet,
      ∃ w ∈ writeLog pre, w.Touches key ∧ txn.snapshotVersion < w.version) ∧
    (∀ ks, r.conflictingKeys = some ks → ∀ key ∈ ks, key ∈ txn.writeSet ∧
      ∃ w ∈ writeLog pre, w.Touches key ∧ txn.snapshotVersion < w.version) ∧
    (r.status.code = .ok → ∀ key ∈ txn.writeSet,
      (∀ w ∈ writeLog pre, w.Touches key → w.version ≤ txn.snapshotVersion) ∨
      ∃ e ∈ (WriteLog.history (writeLog pre) key).getLast?, e.Dead ∧ txn.snapshotVersion < e.version ∧
        e.version ≤ highest (boundaries pre)) := by
  obtain ⟨hpre, ht, _⟩ := h.around
  have hrep := represents_of_execution hpre
  have hbuf : txn.Buffered := allBuffered_of_execution hpre id txn (by simp [State.object, hc, Phase.object])
  have hf := taken_fires ht
  rw [hl, hr] at hf
  obtain rfl := hf.commit_reply hc ha
  rcases Transaction.commit_cases t.source.store hbuf ha want with ⟨he, heq⟩ | ⟨_, hv, heq⟩ | ⟨_, hw, _, _, hout⟩
  · rw [heq]
    refine ⟨by simp, by simp, fun _ key hkey => ?_⟩
    obtain ⟨op, hop, _⟩ := txn.mem_writeSet.mp hkey
    simp [txn.ops_eq_nil.mpr he] at hop
  · rw [heq]
    refine ⟨by simp [written], by simp [written], fun _ key hkey => ?_⟩
    obtain ⟨op, hop, rfl⟩ := txn.mem_writeSet.mp hkey
    exact validated_cases hrep (hv op hop)
  · obtain ⟨hcode, _, _, hkeys⟩ := Observed.mk.inj hout
    refine ⟨fun _ => ?_, fun ks hks key hkey => ?_, fun hok => ?_⟩
    · obtain ⟨op, hop, hsince⟩ := hw
      exact ⟨op.key, txn.mem_writeSet.mpr ⟨op, hop, rfl⟩, hrep.written_of_writtenSince hsince⟩
    · rw [hks] at hkeys
      obtain ⟨_, he⟩ := Option.ite_none_right_eq_some.mp hkeys.symm
      obtain rfl := Option.some.inj he
      obtain ⟨op, hop, rfl⟩ := List.mem_map.mp hkey
      obtain ⟨hop, hsince⟩ := List.mem_filter.mp hop
      exact ⟨txn.mem_writeSet.mpr ⟨op, hop, rfl⟩, hrep.written_of_writtenSince hsince⟩
    · rw [hok] at hcode
      cases hcode

/-- A put and a delete follow the snapshot of transaction 1, and a blind scan's sweep takes both. -/
private def sweptDelete : List Action :=
  .runOnce 0 :: visits 0 2 ++ beginSections 1 ++ .write (.put "k" "1") :: .write (.delete "k") :: visits 0 14 ++
    [.finishScan 0, .collectGarbage 0, .data 1 (.put "k" "2")]

theorem commits_miss_only_deletes_swept_delete :
    ∃ pre t s r, machine.Execution (pre ++ [t]) s ∧ t.label = .commit 1 true ∧ t.output = some r ∧
      r.status.code = .ok ∧ ∃ e ∈ (WriteLog.history (writeLog pre) "k").getLast?, e.Dead ∧ 0 < e.version := by
  obtain ⟨pre, s, txn, hpre, hc, ha, hsnap, hkey, hlog, hcode⟩ : ∃ pre s txn, machine.Execution pre s ∧
      s.clients 1 = some (.returned txn) ∧ txn.state = .active ∧ txn.snapshotVersion = 0 ∧ "k" ∈ txn.writeSet ∧
      (⟨2, [⟨"k", none⟩]⟩ : LoggedWrite) ∈ writeLog pre ∧ (txn.commit s.store true).2.2.status.code = .ok :=
    ⟨_, _, _, Machine.scheduled sweptDelete (by decide), rfl, by decide, by decide, by decide, by decide,
      by decide⟩
  have h := Machine.Path.snoc hpre (fires_taken (Fires.commit true hc ha))
  refine ⟨pre, _, _, _, h, rfl, rfl, hcode, ?_⟩
  obtain ⟨_, _, hok⟩ := commits_miss_only_deletes h rfl hc ha rfl
  rcases hok hcode "k" hkey with hold | ⟨e, he, hd, hlt, _⟩
  · have hle := hold _ hlog ⟨⟨"k", none⟩, List.mem_singleton_self _, rfl⟩
    simp [hsnap] at hle
  · exact ⟨e, he, hd, hsnap ▸ hlt⟩

end MvccLite.Threads
