import MvccLite.Calls.History
import MvccLite.Store.Sweeps

/-! What a pass leaves behind while transactions are active: of everything ever written, the
operation that a reader at the oldest active snapshot sees and what came after it. -/
namespace MvccLite.Calls
open Library VersionStore

/-- The logged operations on the key after `b`. -/
def newerThan (log : WriteLog) (b : Nat) (key : String) : List VersionedValue :=
  (log.history key).filter (fun e => ¬ e.version ≤ b)

private theorem collected_eq (s : VersionStore) (b : Nat) (key : String) :
    (s.collectGarbage b).1.history key = ((collectHistory b (s.history key)).1).getD [] := by
  rw [history, lookup_collectGarbage, history]
  cases s.table.lookup key with
  | none => simp [collectHistory, partitionPoint, partitionLoop]
  | some hist => rfl

section swept
variable {log : WriteLog} {c b : Nat} {s : VersionStore}

/-- The last operation up to the boundary and the operations after it, or without the first of
these when it is a tombstone. -/
private def Remains (log : WriteLog) (b : Nat) (key : String) (kept : List VersionedValue) : Prop :=
  kept = (log.lastOp b key).toList ++ newerThan log b key ∨
    (∃ e ∈ log.lastOp b key, e.Dead) ∧ kept = newerThan log b key

/-- One tombstone is left only when the last operation is one and nothing is newer. -/
private theorem Remains.expired {key : String} {kept : List VersionedValue} (hk : Remains log b key kept)
    (hx : Expired b kept) : (∃ e ∈ log.lastOp b key, e.Dead) ∧ newerThan log b key = [] := by
  obtain ⟨e, rfl, hd, hle⟩ := hx
  have hout : e ∉ newerThan log b key := fun he => absurd hle (by simpa using (List.mem_filter.mp he).2)
  rcases hk with he | ⟨_, he⟩
  · cases hl : log.lastOp b key with
    | none =>
      rw [hl, Option.toList_none, List.nil_append] at he
      exact absurd (he ▸ List.mem_singleton_self e) hout
    | some x =>
      rw [hl] at he
      obtain ⟨rfl, hn⟩ := List.cons.inj he
      exact ⟨⟨e, rfl, hd⟩, hn.symm⟩
  · exact absurd (he ▸ List.mem_singleton_self e) hout

private theorem Remains.ne_nil_iff {key : String} {kept : List VersionedValue} (hk : Remains log b key kept)
    (hx : ¬ Expired b kept) : kept ≠ [] ↔ (∃ e ∈ log.lastOp b key, ¬ e.Dead) ∨ newerThan log b key ≠ [] := by
  constructor
  · intro hne
    by_contra! hnone
    obtain ⟨hdead, hnew⟩ := hnone
    rcases hk with he | ⟨_, he⟩
    · rw [hnew, List.append_nil] at he
      cases hl : log.lastOp b key with
      | none => exact hne (by rw [he, hl, Option.toList_none])
      | some e => exact hx ⟨e, by rw [he, hl, Option.toList_some], hdead e hl, stamp_le_of_lastAt hl⟩
    · exact hne (he.trans hnew)
  · rintro (⟨e, he, hlive⟩ | hne)
    · rcases hk with hk | ⟨⟨x, hx, hd⟩, _⟩
      · rw [hk, Option.mem_def.mp he]
        simp
      · obtain rfl := Option.mem_unique he hx
        exact absurd hd hlive
    · rcases hk with hk | ⟨_, hk⟩
      · rw [hk]
        simp [hne]
      · rwa [hk]

/-- A sweep at or above every earlier boundary, in terms of the log: what is left of a key is its
last operation up to the boundary and the operations after it, but a tombstone first in line may
be gone, and is when it would be alone. -/
theorem swept_history_eq (hr : Represents log c s) (hc : c ≤ b) (key : String) :
    ((s.collectGarbage b).1.history key = (log.lastOp b key).toList ++ newerThan log b key ∨
      (∃ e ∈ log.lastOp b key, e.Dead) ∧ (s.collectGarbage b).1.history key = newerThan log b key) ∧
    ((s.collectGarbage b).1.history key ≠ [] ↔
      (∃ e ∈ log.lastOp b key, ¬ e.Dead) ∨ newerThan log b key ≠ []) := by
  have hk : Remains log b key (retained VersionedValue.version b (s.history key)) :=
    ((hr.trimmed key).mono hc).retained_eq
  rw [collected_eq]
  rcases collectHistory_cases (hr.sorted key) b with ⟨hx, hgone⟩ | ⟨hx, hkept⟩
  · obtain ⟨⟨e, he, hd⟩, hnew⟩ := hk.expired hx
    rw [hgone, hnew]
    refine ⟨.inr ⟨⟨e, he, hd⟩, rfl⟩, by simp, ?_⟩
    rintro (⟨x, hx, hlive⟩ | hne)
    · obtain rfl := Option.mem_unique he hx
      exact absurd hd hlive
    · exact absurd rfl hne
  · rw [hkept, Option.getD_some]
    exact ⟨hk, hk.ne_nil_iff hx⟩

end swept

theorem newerThan_ne_nil {log : WriteLog} {b : Nat} {key : String} :
    newerThan log b key ≠ [] ↔ ∃ w ∈ log, w.Touches key ∧ b < w.version := by
  constructor
  · intro hne
    obtain ⟨e, he⟩ := List.exists_mem_of_ne_nil _ hne
    obtain ⟨hm, hlt⟩ := List.mem_filter.mp he
    obtain ⟨w, hw, hv, hop⟩ := WriteLog.mem_history.mp hm
    exact ⟨w, hw, ⟨_, hop, rfl⟩, by simpa [hv] using hlt⟩
  · rintro ⟨w, hw, ⟨op, hop, rfl⟩, hlt⟩
    have hm : ⟨w.version, op.value⟩ ∈ log.history op.key := WriteLog.mem_history.mpr ⟨w, hw, rfl, hop⟩
    exact List.ne_nil_of_mem (List.mem_filter.mpr ⟨hm, by simpa using hlt⟩)

/-- Successive passes never go back: a pass sweeps at or above every earlier one. -/
theorem highest_le_oldestActiveSnapshot {tr : List Event} {s : Sys} (h : machine.Execution tr s) :
    highest (passBoundaries tr) ≤ s.manager.oldestActiveSnapshot s.store := by
  have hold := Threads.oldest_quiet (registered_of_execution h) (quiet_threads s)
  change s.manager.oldestActiveSnapshot s.store = _ at hold
  rw [hold]
  cases hm : s.threads.activeSnapshots.min? with
  | none => exact highest_le_currentVersion h
  | some v =>
    have hmem : v ∈ s.threads.activeSnapshots := (List.min?_eq_some_iff.mp hm).1
    rw [Threads.State.activeSnapshots, List.mem_filterMap] at hmem
    obtain ⟨id, _, hid⟩ := hmem
    cases ho : s.txns id with
    | none => simp [Sys.threads, ho] at hid
    | some txn =>
      obtain ⟨ha, rfl⟩ : txn.state = .active ∧ txn.snapshotVersion = v := by simpa [Sys.threads, ho] using hid
      exact swept_of_execution h id txn ho ha

/-- In every reachable state a pass leaves nothing that no reader could ask for. Of each key it
keeps the operation that the oldest active snapshot sees and the operations after it, a deletion
seen there being optional; and the key goes exactly when the oldest active snapshot sees no value
and nothing was written since. -/
theorem pass_keeps_only_readable {tr : List Event} {s : Sys} (h : machine.Execution tr s) :
    ∃ b s' stats, machine.step s .oldestActiveSnapshot = some (s, .version b) ∧
      machine.step s .runOnce = some (s', .stats stats) ∧ ∀ key,
        (s'.store.history key = ((callLog tr).lastOp b key).toList ++ newerThan (callLog tr) b key ∨
          (callLog tr).valueAt b key = none ∧ s'.store.history key = newerThan (callLog tr) b key) ∧
        (key ∈ s'.store.table ↔ (callLog tr).valueAt b key ≠ none ∨
          ∃ w ∈ callLog tr, w.Touches key ∧ b < w.version) := by
  refine ⟨s.manager.oldestActiveSnapshot s.store, s.runOnce.1, _, rfl, rfl, fun key => ?_⟩
  have hr := represents_of_execution h
  obtain ⟨hform, hiff⟩ := swept_history_eq hr (highest_le_oldestActiveSnapshot h) key
  have hswept := hr.collect (s.manager.oldestActiveSnapshot s.store)
  change (s.runOnce.1.store.history key = _ ∨ _ ∧ s.runOnce.1.store.history key = _) at hform
  change (s.runOnce.1.store.history key ≠ [] ↔ _) at hiff
  change Represents _ _ s.runOnce.1.store at hswept
  generalize s.manager.oldestActiveSnapshot s.store = b at hform hiff hswept ⊢
  have hmem : key ∈ s.runOnce.1.store.table ↔ s.runOnce.1.store.history key ≠ [] := by
    rw [ne_eq, hswept.history_eq_nil, ← AList.lookup_isSome, Option.isSome_iff_ne_none]
  have hlive : (∃ e ∈ (callLog tr).lastOp b key, ¬ e.Dead) ↔ (callLog tr).valueAt b key ≠ none := by
    simp [WriteLog.valueAt, VersionedValue.Dead]
  refine ⟨hform.imp_right (fun hd => ⟨?_, hd.2⟩), ?_⟩
  · obtain ⟨e, he, hd⟩ := hd.1
    rw [WriteLog.valueAt, Option.mem_def.mp he]
    exact hd
  · rw [hmem, hiff, hlive, newerThan_ne_nil]

/-- A key overwritten before and after a transaction begins, one deleted before and one put after. -/
private def heldBack : List Call :=
  [.write (.put "a" "1"), .write (.put "a" "2"), .write (.put "b" "1"), .write (.delete "b"), .begin,
    .write (.put "a" "3"), .write (.put "c" "1")]

theorem pass_keeps_only_readable_held_back :
    ∃ tr s s' stats, machine.Execution tr s ∧ machine.step s .runOnce = some (s', .stats stats) ∧
      s'.store.history "a" = [⟨2, some "2"⟩, ⟨5, some "3"⟩] ∧ "b" ∉ s'.store.table ∧ "c" ∈ s'.store.table := by
  have h : machine.Execution (machine.trace heldBack) (machine.final heldBack) :=
    Machine.scheduled heldBack (by decide)
  obtain ⟨b, s', stats, hb, hstep, hkeys⟩ := pass_keeps_only_readable h
  obtain rfl : 4 = b := by
    have hanswer : (machine.step (machine.final heldBack) .oldestActiveSnapshot).map Prod.snd = some (.version 4) := by
      decide
    rw [hb] at hanswer
    exact (Response.version.inj (Option.some.inj hanswer)).symm
  have hgone := (hkeys "b").2
  have hkept := (hkeys "c").2
  rw [← newerThan_ne_nil] at hgone hkept
  refine ⟨_, _, s', stats, h, hstep, ?_, fun hm => absurd (hgone.mp hm) (by decide), hkept.mpr (by decide)⟩
  rcases (hkeys "a").1 with he | ⟨hnone, _⟩
  · exact he.trans (by decide)
  · exact absurd hnone (by decide)

end MvccLite.Calls
