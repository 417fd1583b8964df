import MvccLite.Calls.History
import MvccLite.Txn.Agreement

/-! Garbage collection is unobservable: the run without the collector passes
answers every other call alike. -/
namespace MvccLite.Calls
open Library VersionStore

/-- What a caller may compare: everything but message texts and stored counts. -/
inductive Shown where
  | began (id snapshot : Nat)
  | reply (o : Observed)
  | done
  | version (v : Nat)
  | active (n : Nat)
  | hidden
  deriving DecidableEq

def Response.shown : Response → Shown
  | .began id snapshot => .began id snapshot
  | .reply r => .reply r.observed
  | .done => .done
  | .version v => .version v
  | .active n => .active n
  | .stored _ | .stats _ => .hidden

/-- The call reads and validates at or above `b`, where it names a version itself. -/
def Call.Above (b : Nat) : Call → Prop
  | .getAsOf _ asOf => b ≤ asOf
  | .write c => c.Above b
  | _ => True

instance (b : Nat) (c : Call) : Decidable (c.Above b) :=
  match c with
  | .getAsOf _ asOf => inferInstanceAs (Decidable (b ≤ asOf))
  | .write c => inferInstanceAs (Decidable (c.Above b))
  | .begin | .data _ _ | .commit _ _ | .abort _ | .destroy _ | .get _ | .currentVersion | .keyCount
  | .versionCount _ | .oldestActiveSnapshot | .activeTransactionCount | .runOnce => isTrue trivial

/-- The same system with another table of the same log. -/
structure Twin (log : WriteLog) (b : Nat) (s s' : Sys) : Prop where
  right : Represents log b s'.store
  manager : s'.manager = s.manager
  txns : s'.txns = s.txns

/-- What is known of a system whose store stands for the log. -/
structure Guarded (log : WriteLog) (b : Nat) (s : Sys) : Prop where
  left : Represents log b s.store
  buffered : ∀ id txn, s.txns id = some txn → txn.Buffered
  above : ∀ id txn, s.txns id = some txn → txn.state = .active → b ≤ txn.snapshotVersion

theorem guarded_of_execution {tr : List Event} {s : Sys} (h : machine.Execution tr s) :
    Guarded (callLog tr) (highest (passBoundaries tr)) s where
  left := represents_of_execution h
  buffered _ _ ho := buffered_of_execution h ho
  above := swept_of_execution h

namespace Twin
variable {log : WriteLog} {b : Nat} {s s' : Sys}

private theorem currentVersion (hg : Guarded log b s) (h : Twin log b s s') :
    s'.store.currentVersion = s.store.currentVersion := by
  rw [h.right.currentVersion_eq, hg.left.currentVersion_eq]

private theorem oldestActiveSnapshot (hg : Guarded log b s) (h : Twin log b s s') :
    s'.manager.oldestActiveSnapshot s'.store = s.manager.oldestActiveSnapshot s.store := by
  unfold TransactionManager.oldestActiveSnapshot
  rw [h.manager]
  cases (List.finRange kNumShards).foldl
      (fun seen i => TransactionManager.scanShard seen (s.manager.shards i)) none with
  | none => exact h.currentVersion hg
  | some m => rfl

/-- The twin answers the same call alike, and they stay twins. -/
theorem step (hg : Guarded log b s) (h : Twin log b s s') {c : Call} {r : Response} {s₁ : Sys}
    (hs : s.step c = some (s₁, r)) (hc : c ≠ .runOnce) (habove : c.Above b) :
    ∃ s₁' r', s'.step c = some (s₁', r') ∧ r'.shown = r.shown ∧
      Twin (log ++ (callEntry ⟨s, c, r, s₁⟩).toList) b s₁ s₁' := by
  have hv := h.currentVersion hg
  have same : Twin (log ++ (none : Option LoggedWrite).toList) b s s' := by simpa using h
  cases c with
  | begin =>
    obtain ⟨rfl, rfl⟩ := Prod.mk.inj (Option.some.inj hs)
    refine ⟨s'.begin.1, s'.begin.2, rfl, ?_, ?_⟩
    · simp [Sys.begin, TransactionManager.begin, h.manager, hv]
    · refine ⟨by simpa [callEntry, Sys.begin] using h.right, ?_, ?_⟩
      · simp [Sys.begin, TransactionManager.begin, h.manager, hv, Sys.setTxn]
      · simp [Sys.begin, TransactionManager.begin, h.manager, hv, Sys.setTxn, h.txns]
  | data id c =>
    obtain ⟨txn, ho, heq⟩ := Option.map_eq_some_iff.mp hs
    obtain ⟨rfl, rfl⟩ := Prod.mk.inj heq
    obtain ⟨hobj, hobs⟩ := Transaction.exec_agree hg.left h.right (hg.buffered id txn ho) (hg.above id txn ho) c
    refine ⟨s'.setTxn id (some (txn.exec s'.store c).1), .reply (txn.exec s'.store c).2,
      by rw [Sys.step, h.txns, ho]; rfl, congrArg Shown.reply hobs.symm, ?_⟩
    refine ⟨by simpa [callEntry] using h.right, h.manager, ?_⟩
    simp [Sys.setTxn, h.txns, hobj]
  | commit id want =>
    obtain ⟨txn, ho, heq⟩ := Option.map_eq_some_iff.mp hs
    obtain ⟨rfl, rfl⟩ := Prod.mk.inj heq
    obtain ⟨hobj, hobs, hr⟩ :=
      Transaction.commit_agree hg.left h.right (hg.buffered id txn ho) (hg.above id txn ho) want
    refine ⟨(s'.commit id txn want).1, (s'.commit id txn want).2, by rw [Sys.step, h.txns, ho]; rfl,
      congrArg Shown.reply hobs.symm, ?_⟩
    refine ⟨by simpa [callEntry, ho, Sys.commit] using hr, by simp [Sys.commit, Sys.released, h.manager], ?_⟩
    simp [Sys.commit, Sys.setTxn, h.txns, hobj]
  | abort id =>
    obtain ⟨txn, ho, heq⟩ := Option.map_eq_some_iff.mp hs
    obtain ⟨rfl, rfl⟩ := Prod.mk.inj heq
    refine ⟨(s'.abort id txn).1, (s'.abort id txn).2, by rw [Sys.step, h.txns, ho]; rfl, rfl, ?_⟩
    refine ⟨by simpa [callEntry, Sys.abort] using h.right, by simp [Sys.abort, Sys.released, h.manager], ?_⟩
    simp [Sys.abort, Sys.setTxn, h.txns]
  | destroy id =>
    obtain ⟨txn, ho, heq⟩ := Option.map_eq_some_iff.mp hs
    obtain ⟨rfl, rfl⟩ := Prod.mk.inj heq
    refine ⟨(s'.destroy id txn).1, (s'.destroy id txn).2, by rw [Sys.step, h.txns, ho]; rfl, rfl, ?_⟩
    refine ⟨by simpa [callEntry, Sys.destroy] using h.right, by simp [Sys.destroy, Sys.released, h.manager], ?_⟩
    simp [Sys.destroy, Sys.setTxn, h.txns]
  | write c =>
    obtain ⟨rfl, rfl⟩ := Prod.mk.inj (Option.some.inj hs)
    have hobs := hg.left.write_agree h.right habove
    refine ⟨_, _, rfl, congrArg Shown.reply hobs.symm, ?_, h.manager, h.txns⟩
    have hr := h.right.write c
    rwa [← loggedWrite_congr hobs] at hr
  | get key =>
    obtain ⟨rfl, rfl⟩ := Prod.mk.inj (Option.some.inj hs)
    exact ⟨_, _, rfl, congrArg Shown.reply (hg.left.get_agree h.right key).symm, same⟩
  | getAsOf key asOf =>
    obtain ⟨rfl, rfl⟩ := Prod.mk.inj (Option.some.inj hs)
    exact ⟨_, _, rfl, congrArg Shown.reply (hg.left.getAsOf_agree h.right habove key).symm, same⟩
  | currentVersion =>
    obtain ⟨rfl, rfl⟩ := Prod.mk.inj (Option.some.inj hs)
    exact ⟨_, _, rfl, congrArg Shown.version hv, same⟩
  | keyCount | versionCount =>
    obtain ⟨rfl, rfl⟩ := Prod.mk.inj (Option.some.inj hs)
    exact ⟨_, _, rfl, rfl, same⟩
  | oldestActiveSnapshot =>
    obtain ⟨rfl, rfl⟩ := Prod.mk.inj (Option.some.inj hs)
    exact ⟨_, _, rfl, congrArg Shown.version (h.oldestActiveSnapshot hg), same⟩
  | activeTransactionCount =>
    obtain ⟨rfl, rfl⟩ := Prod.mk.inj (Option.some.inj hs)
    exact ⟨_, _, rfl, by rw [h.manager], same⟩
  | runOnce => exact absurd rfl hc

end Twin

/-- Each call of the run that names a version itself names none below the
boundary of an earlier pass. -/
def VersionsAbove (tr : List Event) : Prop :=
  ∀ pre t post, tr = pre ++ t :: post → ∀ b ∈ passBoundaries pre, t.label.Above b

private theorem above_highest {bs : List Nat} {c : Call} (h : ∀ b ∈ bs, c.Above b) : c.Above (highest bs) := by
  cases c with
  | getAsOf key asOf => exact highest_le h
  | write c =>
    cases c with
    | applyBatchIfNoConflict ops snapshot want => exact highest_le h
    | put | delete | applyBatch => trivial
  | _ => trivial

/-- A run without its passes: the same labels but those, the same answers, and a twin at the end. -/
private def Skips (tr : List Event) (s : Sys) : Prop :=
  ∃ tr' s', machine.Execution tr' s' ∧
    tr'.map Transition.label = (tr.map Transition.label).filter (· ≠ .runOnce) ∧
    tr'.map (fun t => t.output.shown) = (tr.filter (fun t => t.label ≠ .runOnce)).map (fun t => t.output.shown) ∧
    Twin (callLog tr) (highest (passBoundaries tr)) s s'

private theorem skips_pass {tr : List Event} {t : Event} (ht : machine.Taken t) (hl : t.label = .runOnce)
    (hs : Skips tr t.source) : Skips (tr ++ [t]) t.target := by
  obtain ⟨tr', s', hex, hlabels, hshown, htwin⟩ := hs
  have htarget : t.target = t.source.runOnce.1 := by
    unfold Machine.Taken at ht
    rw [hl] at ht
    exact (Prod.mk.inj (Option.some.inj ht)).1.symm
  refine ⟨tr', s', hex, by simpa [hl] using hlabels, by simpa [hl] using hshown, ?_⟩
  refine ⟨?_, by rw [htarget]; exact htwin.manager, by rw [htarget]; exact htwin.txns⟩
  have hentry : callEntry t = none := by simp [callEntry, hl]
  have hle : highest (passBoundaries tr) ≤ highest (passBoundaries (tr ++ [t])) := by
    rw [passBoundaries_concat]
    cases passBoundary t with
    | none => simp
    | some b => simp
  rw [callLog_concat, hentry]
  simpa using htwin.right.mono hle

private theorem skips_call {tr : List Event} {t : Event} (hp : machine.Execution tr t.source) (ht : machine.Taken t)
    (hl : t.label ≠ .runOnce) (habove : t.label.Above (highest (passBoundaries tr))) (hs : Skips tr t.source) :
    Skips (tr ++ [t]) t.target := by
  obtain ⟨tr', s', hex, hlabels, hshown, htwin⟩ := hs
  obtain ⟨s₁', r', hstep, hr, htwin'⟩ := htwin.step (guarded_of_execution hp) ht hl habove
  have hb : passBoundary t = none := by
    unfold passBoundary
    split
    · rename_i hrun
      exact absurd hrun hl
    · rfl
  refine ⟨tr' ++ [⟨s', t.label, r', s₁'⟩], s₁', .snoc (t := ⟨s', t.label, r', s₁'⟩) hex hstep, ?_, ?_, ?_⟩
  · simp [hl, hlabels]
  · simp [hl, hshown, hr]
  · rw [callLog_concat, passBoundaries_concat, hb]
    simpa using htwin'

/-- Deleting the collector passes from a sequence of calls changes no status code,
value, version, snapshot or conflicting-key list of any other call. -/
theorem collection_unobservable {cs : List Call} {tr : List Event} {s : Sys}
    (h : machine.run {} cs = some (tr, s)) (habove : VersionsAbove tr) :
    ∃ tr' s', machine.run {} (cs.filter (· ≠ .runOnce)) = some (tr', s') ∧
      tr'.map (fun t => t.output.shown) =
        (tr.filter (fun t => t.label ≠ .runOnce)).map (fun t => t.output.shown) := by
  have hex : machine.Execution tr s := Machine.run_path h
  have hskips : VersionsAbove tr → Skips tr s := by
    refine hex.invariant (I := fun tr s => VersionsAbove tr → Skips tr s) (fun _ => ?_) ?_
    · exact ⟨[], {}, .nil, rfl, rfl, .empty, rfl, rfl⟩
    · intro tr t hp ht ih hall
      have hprev : Skips tr t.source := ih (fun pre u post hu => hall pre u (post ++ [t]) (by simp [hu]))
      by_cases hl : t.label = .runOnce
      · exact skips_pass ht hl hprev
      · exact skips_call hp ht hl (above_highest (hall tr t [] rfl)) hprev
  obtain ⟨tr', s', hex', hlabels, hshown, _⟩ := hskips habove
  refine ⟨tr', s', ?_, hshown⟩
  rw [← Machine.run_labels h, ← hlabels]
  exact hex'.run_eq

/-- A reader holds back the first pass; the second drops the deleted key. -/
private def droppedKey : List Call :=
  [.write (.put "k" "1"), .begin, .write (.delete "k"), .runOnce, .data 1 (.get "k"), .commit 1 false, .runOnce,
    .getAsOf "k" 2, .get "k"]

theorem collection_unobservable_dropped_key :
    ∃ tr s, machine.run {} droppedKey = some (tr, s) ∧ passBoundaries tr = [1, 2] ∧ VersionsAbove tr ∧
      s.store.keyCount = 0 ∧ ∃ tr' s', machine.run {} (droppedKey.filter (· ≠ .runOnce)) = some (tr', s') ∧
        tr'.map (fun t => t.output.shown) =
          (tr.filter (fun t => t.label ≠ .runOnce)).map (fun t => t.output.shown) := by
  obtain ⟨tr, s, h, hbs, hlabels, hcount⟩ : ∃ tr s, machine.run {} droppedKey = some (tr, s) ∧
      passBoundaries tr = [1, 2] ∧ (∀ t ∈ tr, t.label.Above 1 ∧ t.label.Above 2) ∧ s.store.keyCount = 0 :=
    ⟨_, _, Machine.run_scheduled droppedKey (by decide), by decide, by decide, by decide⟩
  have habove : VersionsAbove tr := by
    rintro pre t post rfl b hb
    have hmem : b ∈ passBoundaries (pre ++ t :: post) := by
      rw [passBoundaries, List.filterMap_append]
      exact List.mem_append_left _ hb
    obtain ⟨h₁, h₂⟩ := hlabels t (by simp)
    rw [hbs] at hmem
    rcases List.mem_cons.mp hmem with rfl | hmem
    · exact h₁
    · obtain rfl := List.mem_singleton.mp hmem
      exact h₂
  exact ⟨tr, s, h, hbs, habove, hcount, collection_unobservable h habove⟩

end MvccLite.Calls
