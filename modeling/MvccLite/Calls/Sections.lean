import MvccLite.Calls.System
import MvccLite.Threads.Frames

/-! A public call is a run of critical sections that nobody interrupts, so every
run of calls is a run of sections with the same store and registry. -/
namespace MvccLite.Calls
open Library TransactionManager

/-- Between calls every object is at rest and no pass is going on. -/
def Sys.threads (s : Sys) : Threads.State where
  store := s.store
  manager := s.manager
  clients id := (s.txns id).map .returned
  passes _ := .idle
  cumulativeStats := s.cumulativeStats

/-- The log entry of a call: a direct write, or a commit with something to write. -/
def callEntry (t : Event) : Option LoggedWrite :=
  match t.label, t.output with
  | .write c, .reply r => loggedWrite c.ops r
  | .commit id _, .reply r =>
    match t.source.txns id with
    | some txn => txn.commitEntry r
    | none => none
  | _, _ => none

/-- The boundary of a collector pass. -/
def passBoundary (t : Event) : Option Nat :=
  match t.label with
  | .runOnce => some (t.source.manager.oldestActiveSnapshot t.source.store)
  | _ => none

/-- The successful writes of a run, direct or by commit, with their versions. -/
def callLog (tr : List Event) : WriteLog := tr.filterMap callEntry

/-- The boundaries of the collector passes of a run. -/
def passBoundaries (tr : List Event) : List Nat := tr.filterMap passBoundary

theorem callLog_concat (tr : List Event) (t : Event) :
    callLog (tr ++ [t]) = callLog tr ++ (callEntry t).toList := filterMap_concat _ _ _

theorem passBoundaries_concat (tr : List Event) (t : Event) :
    passBoundaries (tr ++ [t]) = passBoundaries tr ++ (passBoundary t).toList := filterMap_concat _ _ _

/-- A run of sections between two states, with what it logs and where it sweeps. -/
def Sections (s s' : Threads.State) (entry : Option LoggedWrite) (boundary : Option Nat) : Prop :=
  ∃ tr, Threads.machine.Path s tr s' ∧ Threads.writeLog tr = entry.toList ∧
    Threads.boundaries tr = boundary.toList

namespace Sections
variable {s s' s'' : Threads.State} {a : Threads.Action} {r : Option Reply}

theorem none (s : Threads.State) : Sections s s .none .none := ⟨[], .nil, rfl, rfl⟩

theorem single (h : Threads.Fires s a r s') :
    Sections s s' (Threads.writeEntry ⟨s, a, r, s'⟩) (Threads.sweepBoundary ⟨s, a, r, s'⟩) :=
  ⟨[⟨s, a, r, s'⟩], .single (Threads.fires_taken h), filterMap_concat _ [] _, filterMap_concat _ [] _⟩

theorem snoc {entry : Option LoggedWrite} {boundary : Option Nat} (h : Sections s s' entry boundary)
    (hf : Threads.Fires s' a r s'') (hw : Threads.writeEntry ⟨s', a, r, s''⟩ = .none)
    (hs : Threads.sweepBoundary ⟨s', a, r, s''⟩ = .none) : Sections s s'' entry boundary := by
  obtain ⟨tr, hp, hlog, hbs⟩ := h
  refine ⟨tr ++ [⟨s', a, r, s''⟩], .snoc hp (Threads.fires_taken hf), ?_, ?_⟩
  · rw [Threads.writeLog_concat, hw, hlog]
    simp
  · rw [Threads.boundaries_concat, hs, hbs]
    simp

/-- A run that logs and sweeps nothing may come first. -/
theorem quiet {entry : Option LoggedWrite} {boundary : Option Nat} (h : Sections s s' .none .none)
    (h' : Sections s' s'' entry boundary) : Sections s s'' entry boundary := by
  obtain ⟨tr, hp, hlog, hbs⟩ := h
  obtain ⟨tr', hp', hlog', hbs'⟩ := h'
  refine ⟨tr ++ tr', hp.append hp', ?_, ?_⟩
  · rw [← hlog', Threads.writeLog, List.filterMap_append]
    exact congrArg (· ++ Threads.writeLog tr') hlog
  · rw [← hbs', Threads.boundaries, List.filterMap_append]
    exact congrArg (· ++ Threads.boundaries tr') hbs

end Sections

namespace Sys
variable (s : Sys) (id : Nat) (txn : Transaction)

theorem threads_setTxn (txn : Option Transaction) :
    (s.setTxn id txn).threads = s.threads.setClient id (txn.map .returned) := by
  simp only [threads, setTxn, Threads.State.setClient, Threads.State.mk.injEq, true_and, and_true]
  funext id'
  by_cases h : id' = id
  · subst h
    simp
  · simp [h]

variable {s id txn}

theorem threads_client (h : s.txns id = some txn) : s.threads.clients id = some (.returned txn) := by
  simp [threads, h]

private theorem threads_same (h : s.txns id = some txn) :
    s.threads.setClient id (some (.returned txn)) = s.threads := by
  rw [← threads_client h, Threads.State.setClient, Function.update_eq_self]

private theorem begin_sections : Sections s.threads s.begin.1.threads none none := by
  have self (t : Threads.State) (ph : Option Threads.Phase) :
      (t.setClient s.manager.nextTxnId ph).clients s.manager.nextTxnId = ph := t.setClient_self _ _
  have hdraw : Sections s.threads _ none none := .single Threads.Fires.fetchTxnId
  have hread := (hdraw.snoc (.placeholder (self _ _)) rfl rfl).snoc (.readVersion (self _ _)) rfl rfl
  have hrefine := hread.snoc (.refine (self _ _)) rfl rfl
  rw [begin, threads_setTxn]
  simpa [Threads.State.setClient, threads, TransactionManager.begin] using hrefine

private theorem commit_sections (h : s.txns id = some txn) (want : Bool) :
    Sections s.threads (s.commit id txn want).1.threads
      (callEntry ⟨s, .commit id want, (s.commit id txn want).2, (s.commit id txn want).1⟩) none := by
  have hc := threads_client h
  by_cases ha : txn.state = .active
  · have hfirst := Sections.single (Threads.Fires.commit want hc ha)
    have hboth := hfirst.snoc (.unregister (Threads.State.setClient_self _ _ _)) rfl rfl
    rw [commit, threads_setTxn]
    simpa [Threads.State.setClient, threads, released, ha, callEntry, h, Threads.writeEntry, Threads.sweepBoundary,
      txn.commit_fixed s.store want] using hboth
  · have hself := Sections.single (Threads.Fires.commitRefused want hc ha)
    rw [commit, threads_setTxn, Transaction.commit_inactive ha]
    simpa [released, ha, callEntry, h, Threads.writeEntry, Threads.sweepBoundary, hc, threads_same h] using hself

private theorem abort_sections (h : s.txns id = some txn) :
    Sections s.threads (s.abort id txn).1.threads none none := by
  have hc := threads_client h
  by_cases ha : txn.state = .active
  · have hfirst : Sections s.threads _ none none := .single (Threads.Fires.abort hc ha)
    have hboth := hfirst.snoc (.unregister (Threads.State.setClient_self _ _ _)) rfl rfl
    rw [abort, threads_setTxn]
    simpa [Threads.State.setClient, threads, released, ha, txn.abort_fixed] using hboth
  · have hself : Sections s.threads _ none none := .single (Threads.Fires.abortRefused hc ha)
    rw [abort, threads_setTxn, Transaction.abort_inactive ha]
    simpa [released, ha, threads_same h] using hself

private theorem destroy_sections (h : s.txns id = some txn) :
    Sections s.threads (s.destroy id txn).1.threads none none := by
  have hc := threads_client h
  rw [destroy, threads_setTxn]
  by_cases ha : txn.state = .active
  · have hfirst : Sections s.threads _ none none := .single (Threads.Fires.destroy hc ha)
    have hboth := hfirst.snoc (.unregisterDestroyed (Threads.State.setClient_self _ _ _)) rfl rfl
    simpa [Threads.State.setClient, threads, released, ha] using hboth
  · have hself : Sections s.threads _ none none := .single (Threads.Fires.destroyFinished hc ha)
    simpa [released, ha] using hself

/-- What a scan has seen after its first `n` shards. -/
private def scanned (m : TransactionManager) (n : Nat) : Option Nat :=
  ((List.finRange kNumShards).take n).foldl (fun seen i => scanShard seen (m.shards i)) none

private theorem scanned_succ (m : TransactionManager) {n : Nat} (hn : n < kNumShards) :
    scanned m (n + 1) = scanShard (scanned m n) (m.shards ⟨n, hn⟩) := by
  have hget : (List.finRange kNumShards)[n]? = some ⟨n, hn⟩ := by simp [hn]
  rw [scanned, List.take_add_one, hget]
  simp [scanned]

private theorem scan_sections (t : Threads.State) (h : t.passes 0 = .idle) :
    ∀ n ≤ kNumShards, Sections t (t.setPass 0 (.scanning n (scanned t.manager n))) none none := by
  intro n
  induction n with
  | zero =>
    intro _
    exact .single (Threads.Fires.runOnce h)
  | succ n ih =>
    intro hn
    have hnext := (ih (Nat.le_of_succ_le hn)).snoc (.visitShard (Threads.State.setPass_self _ _ _) hn) rfl rfl
    rwa [Threads.State.setPass_setPass, Threads.State.setPass_manager, ← scanned_succ] at hnext

private theorem runOnce_sections :
    Sections s.threads s.runOnce.1.threads none (some (s.manager.oldestActiveSnapshot s.store)) := by
  have hscan := scan_sections s.threads rfl kNumShards le_rfl
  have hbound := hscan.snoc (.finishScan (Threads.State.setPass_self _ _ _)) rfl rfl
  have hall : TransactionManager.boundary s.store (scanned s.manager kNumShards) =
      s.manager.oldestActiveSnapshot s.store := by
    rw [scanned, List.take_of_length_le (by simp), oldestActiveSnapshot]
  have hb : (s.threads.setPass 0 (.bounded (s.manager.oldestActiveSnapshot s.store))).passes 0 =
      .bounded (s.manager.oldestActiveSnapshot s.store) := Threads.State.setPass_self _ _ _
  rw [Threads.State.setPass_setPass] at hbound
  change Sections _ (s.threads.setPass 0 (.bounded
    (TransactionManager.boundary s.store (scanned s.manager _)))) _ _ at hbound
  rw [hall] at hbound
  have hsweep : Sections _ _ none (some (s.manager.oldestActiveSnapshot s.store)) :=
    hbound.quiet (.single (Threads.Fires.collectGarbage hb))
  have hend := hsweep.snoc (.addStats (Threads.State.setPass_self _ _ _)) rfl rfl
  simpa [Threads.State.setPass, threads, runOnce, Function.update_eq_self_iff] using hend

end Sys

/-- Every call is a run of sections. -/
theorem call_sections {t : Event} (h : machine.Taken t) :
    Sections t.source.threads t.target.threads (callEntry t) (passBoundary t) := by
  obtain ⟨s, c, r, s'⟩ := t
  change s.step c = some (s', r) at h
  cases c with
  | begin =>
    obtain ⟨rfl, rfl⟩ := Prod.mk.inj (Option.some.inj h)
    exact Sys.begin_sections
  | data id c =>
    obtain ⟨txn, htxn, heq⟩ := Option.map_eq_some_iff.mp h
    obtain ⟨rfl, rfl⟩ := Prod.mk.inj heq
    have hself := Sections.single (Threads.Fires.data c (Sys.threads_client htxn))
    rw [← show s.threads.setClient id (some (.returned (txn.exec s.store c).1)) = _ from
      (s.threads_setTxn id (some (txn.exec s.store c).1)).symm]
    exact hself
  | commit id want =>
    obtain ⟨txn, htxn, heq⟩ := Option.map_eq_some_iff.mp h
    obtain ⟨rfl, rfl⟩ := Prod.mk.inj heq
    exact Sys.commit_sections htxn want
  | abort id =>
    obtain ⟨txn, htxn, heq⟩ := Option.map_eq_some_iff.mp h
    obtain ⟨rfl, rfl⟩ := Prod.mk.inj heq
    exact Sys.abort_sections htxn
  | destroy id =>
    obtain ⟨txn, htxn, heq⟩ := Option.map_eq_some_iff.mp h
    obtain ⟨rfl, rfl⟩ := Prod.mk.inj heq
    exact Sys.destroy_sections htxn
  | write c =>
    obtain ⟨rfl, rfl⟩ := Prod.mk.inj (Option.some.inj h)
    exact .single (Threads.Fires.write c)
  | runOnce =>
    obtain ⟨rfl, rfl⟩ := Prod.mk.inj (Option.some.inj h)
    exact Sys.runOnce_sections
  | get | getAsOf | currentVersion | keyCount | versionCount | oldestActiveSnapshot | activeTransactionCount =>
    obtain ⟨rfl, rfl⟩ := Prod.mk.inj (Option.some.inj h)
    exact .none _

/-- Every run of calls is a run of sections with the same log and boundaries. -/
theorem sections_of_execution {tr : List Event} {s : Sys} (h : machine.Execution tr s) :
    ∃ tr', Threads.machine.Execution tr' s.threads ∧ Threads.writeLog tr' = callLog tr ∧
      Threads.boundaries tr' = passBoundaries tr := by
  refine h.invariant (I := fun tr s => ∃ tr', Threads.machine.Execution tr' s.threads ∧
    Threads.writeLog tr' = callLog tr ∧ Threads.boundaries tr' = passBoundaries tr) ⟨[], .nil, rfl, rfl⟩ ?_
  rintro tr t _ ht ⟨tr', hex, hlog, hbs⟩
  obtain ⟨more, hp, hlog', hbs'⟩ := call_sections ht
  refine ⟨tr' ++ more, hex.append hp, ?_, ?_⟩
  · rw [callLog_concat, ← hlog, ← hlog']
    exact List.filterMap_append
  · rw [passBoundaries_concat, ← hbs, ← hbs']
    exact List.filterMap_append

end MvccLite.Calls
