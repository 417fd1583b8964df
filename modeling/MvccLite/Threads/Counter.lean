import Mathlib.Logic.Function.Iterate
import MvccLite.Threads.Recorded

/-! Reading a key, computing a new value and writing it back. Whatever else runs,
the collector included, each successful commit has seen the value it replaces, so
a key that is only updated this way counts its successful commits. -/
namespace MvccLite.Threads
open Library VersionStore

/-- The section commits a write to the key. -/
def writesKey (key : String) (t : Event) : Bool := (writeEntry t).any (fun w => w.ops.any (fun op => op.key = key))

theorem writesKey_iff {key : String} {t : Event} :
    writesKey key t = true ↔ ∃ w, writeEntry t = some w ∧ w.Touches key := by
  simp [writesKey, Option.any_eq_true, LoggedWrite.Touches]

/-- On this key the transaction has made one read, which found `x`, and then one write of `f x`. -/
def Updates (key : String) (f : Option String → String) (calls : List (DataCall × Reply)) : Prop :=
  ∃ r r', calls.filter (fun call => call.1.key = key) = [(.get key, r), (.put key (f r.value), r')]

/-- A commit that is logged is one of an active transaction that has passed validation. -/
theorem Fires.commit_logged {s s' : State} {id : Nat} {want : Bool} {r : Option Reply} {w : LoggedWrite}
    (h : Fires s (.commit id want) r s') (hb : AllBuffered s)
    (hw : writeEntry ⟨s, .commit id want, r, s'⟩ = some w) :
    ∃ txn, s.clients id = some (.returned txn) ∧ txn.state = .active ∧ w = ⟨s.store.nextVersion, txn.ops⟩ ∧
      ∀ op ∈ txn.ops, s.store.writtenSince txn.snapshotVersion op.key = false := by
  cases h with
  | @commit _ txn _ hc ha =>
    rcases (Fires.commit want hc ha).commit_cases hc ha hb with ⟨_, _, _, hno⟩ | ⟨_, hv, _, _, _, hsome⟩ | ⟨_, _, _, _, hno⟩
    · rw [hno] at hw
      cases hw
    · rw [hsome] at hw
      exact ⟨txn, hc, ha, (Option.some.inj hw).symm, hv⟩
    · rw [hno] at hw
      cases hw
  | @commitRefused _ txn _ hc ha =>
    simp [writeEntry, Transaction.commitEntry, hc, Transaction.notActive_failed.not_logged] at hw

theorem activeCall_eq_some {id : Nat} {u : Event} {c : DataCall} {r : Reply}
    (h : activeCall id u = some (c, r)) : ∃ txn, u.label = .data id c ∧ u.output = some r ∧
      u.source.clients id = some (.returned txn) ∧ txn.state = .active := by
  unfold activeCall at h
  split at h
  · rename_i id' c' r' txn hl ho hc
    obtain ⟨⟨rfl, ha⟩, he⟩ := Option.ite_none_right_eq_some.mp h
    obtain ⟨rfl, rfl⟩ := Prod.mk.inj (Option.some.inj he)
    exact ⟨txn, hl, ho, hc, ha⟩
  · cases h

private theorem ofValue_value (x : Option String) : (Observed.ofValue x).value = x := by
  cases x <;> rfl

/-- A read of a key that nobody has written since the snapshot finds its newest value. -/
private theorem read_untouched {pre post : List Event} {u : Event} {s : State} {id v : Nat} {key : String}
    {r : Reply} (h : machine.Execution (pre ++ u :: post) s) (hkey : key ≠ "")
    (hcall : activeCall id u = some (.get key, r)) (hsnap : u.source.snapshot id = some v)
    (hfree : bufferedBy key (activeCalls id pre) = none)
    (hold : ∀ w ∈ writeLog (pre ++ u :: post), w.Touches key → w.version ≤ v) :
    r.value = WriteLog.latest (writeLog (pre ++ u :: post)) key := by
  obtain ⟨hpre, ht, _⟩ := h.around
  obtain ⟨txn, hl, hout, hc, ha⟩ := activeCall_eq_some hcall
  obtain rfl : txn.snapshotVersion = v := by simpa [State.snapshot, hc, Phase.snapshot, ha] using hsnap
  have hrep := represents_of_execution hpre
  have hnum := (represents_of_execution h).numbered
  have hsplit : writeLog (pre ++ u :: post) = writeLog pre ++ writeLog (u :: post) := List.filterMap_append
  have hpast : ∀ w ∈ writeLog pre, w.Touches key → w.version ≤ txn.snapshotVersion :=
    fun w hw => hold w (by rw [hsplit]; exact List.mem_append_left _ hw)
  have hlookup : txn.writeSet.lookup key = none := by
    have hrec := recorded_of_execution hpre id
    rw [Recorded, hc] at hrec
    rw [(hrec ha).1, hfree]
  have hvalue : r.value = WriteLog.latest (writeLog pre) key := by
    have hf := taken_fires ht
    rw [hl, hout] at hf
    have hobs := VersionStore.getAsOf_observed u.source.store key txn.snapshotVersion (hrep.sorted key)
    rw [if_neg hkey, hrep.visibleAsOf_untouched hpast] at hobs
    have hget : r = u.source.store.getAsOf key txn.snapshotVersion := by
      rw [hf.data_reply hc]
      simp [Transaction.exec, Transaction.get, ha, hlookup]
    rw [hget]
    exact (congrArg Observed.value hobs).trans (ofValue_value _)
  have hbound : txn.snapshotVersion ≤ (writeLog pre).length := by
    rw [← hrep.currentVersion_eq]
    exact (bounded_of_execution hpre).snapshots id _ hsnap
  rw [hvalue, ← WriteLog.valueAt_untouched hpast, ← WriteLog.valueAt_untouched hold, hsplit]
  rw [hsplit] at hnum
  exact (hnum.valueAt_append hbound key).symm

/-- The call that a filtered record starts with was made when nothing on the key was recorded. -/
private theorem first_call {id : Nat} {tr : List Event} {key : String} {call : DataCall × Reply}
    {rest : List (DataCall × Reply)}
    (h : (activeCalls id tr).filter (fun call => call.1.key = key) = call :: rest) :
    ∃ pre u post, tr = pre ++ u :: post ∧ activeCall id u = some call ∧ bufferedBy key (activeCalls id pre) = none := by
  rw [activeCalls, List.filter_filterMap] at h
  obtain ⟨pre, u, post, rfl, hpre, hu, _⟩ := List.filterMap_eq_cons_iff.mp h
  refine ⟨pre, u, post, rfl, (Option.filter_eq_some_iff.mp hu).1, ?_⟩
  have hnil : (activeCalls id pre).filter (fun call => call.1.key = key) = [] := by
    rw [activeCalls, List.filter_filterMap]
    exact List.filterMap_eq_nil_iff.mpr hpre
  rw [← bufferedBy_filter, hnil]
  rfl

/-- The value that an update replaces is the one it was computed from. -/
theorem update_sees_latest {pre : List Event} {t : Event} {id : Nat} {want : Bool} {key : String}
    {f : Option String → String} {w : LoggedWrite} (hpre : machine.Execution pre t.source) (ht : machine.Taken t)
    (hl : t.label = .commit id want) (hw : writeEntry t = some w) (htouch : w.Touches key)
    (hup : Updates key f (activeCalls id pre)) {x : String} (hx : WriteLog.latest (writeLog pre) key = some x) :
    WriteLog.latest (writeLog pre ++ [w]) key = some (f (some x)) := by
  obtain ⟨r, r', hcalls⟩ := hup
  have hf := taken_fires ht
  rw [hl] at hf
  have hb := allBuffered_of_execution hpre
  have hrep := represents_of_execution hpre
  obtain ⟨txn, hc, ha, rfl, hvalid⟩ := hf.commit_logged hb (by rw [← hl]; exact hw)
  obtain ⟨op, hop, rfl⟩ := htouch
  have hkey : op.key ≠ "" := (hb id txn (by simp [State.object, hc, Phase.object])).keys hop
  have hrec := recorded_of_execution hpre id
  rw [Recorded, hc] at hrec
  obtain ⟨hbuf, hsnaps⟩ := hrec ha
  have hold : ∀ w ∈ writeLog pre, w.Touches op.key → w.version ≤ txn.snapshotVersion := by
    rcases validated_cases hrep (hvalid op hop) with hold | ⟨e, he, hd, _⟩
    · exact hold
    · rw [WriteLog.latest, Option.mem_def.mp he, Option.bind_some, hd] at hx
      cases hx
  have hread : r.value = some x := by
    obtain ⟨before, u, after, rfl, hu, hfree⟩ := first_call hcalls
    rw [read_untouched hpre hkey hu (hsnaps u (by simp) (by simp [hu])) hfree hold, hx]
  have hlookup : txn.writeSet.lookup op.key = some (some (f (some x))) := by
    have hin := txn.mem_ops.mp hop
    rw [hbuf, ← bufferedBy_filter, hcalls, hread] at hin ⊢
    simp only [bufferedBy, List.foldl_cons, List.foldl_nil, DataCall.leaves, and_true] at hin ⊢
    split at hin
    · rename_i hok
      rw [if_pos hok]
    · cases hin
  rw [txn.latest_ops, Transaction.contents, WriteSet.overlay, hlookup]
  rfl

/-- A put on an active transaction succeeds, so an update is in its write set. -/
theorem update_buffered {pre : List Event} {s : State} {id : Nat} {txn : Transaction} {key : String}
    {f : Option String → String} (h : machine.Execution pre s) (hc : s.clients id = some (.returned txn))
    (ha : txn.state = .active) (hkey : key ≠ "") (hup : Updates key f (activeCalls id pre)) :
    ∃ value, ⟨key, some value⟩ ∈ txn.ops := by
  obtain ⟨r, r', hcalls⟩ := hup
  have hput : (DataCall.put key (f r.value), r') ∈ activeCalls id pre :=
    (List.mem_filter.mp (hcalls ▸ List.mem_cons_of_mem _ (List.mem_singleton_self _))).1
  have hok : r'.status.code = .ok := by
    obtain ⟨u, hu, hcall⟩ := List.mem_filterMap.mp hput
    obtain ⟨_, _, _, _, htaken, _⟩ := h.of_mem hu
    obtain ⟨txn', hl, hout, hc', ha'⟩ := activeCall_eq_some hcall
    have hf := taken_fires htaken
    rw [hl, hout] at hf
    rw [hf.data_reply hc']
    simp [Transaction.exec, Transaction.put, ha', hkey]
  have hrec := recorded_of_execution h id
  rw [Recorded, hc] at hrec
  refine ⟨f r.value, txn.mem_ops.mpr ?_⟩
  rw [(hrec ha).1, ← bufferedBy_filter, hcalls]
  simp [bufferedBy, DataCall.leaves, hok]

/-- An update that commits with OK has written the key. -/
theorem update_counted {pre : List Event} {t : Event} {id : Nat} {want : Bool} {r : Reply} {key : String}
    {f : Option String → String} (hpre : machine.Execution pre t.source) (ht : machine.Taken t) (hkey : key ≠ "")
    (hl : t.label = .commit id want) (ho : t.output = some r) (hok : r.status.code = .ok)
    (hup : Updates key f (activeCalls id pre)) : writesKey key t = true := by
  have hf := taken_fires ht
  have hb := allBuffered_of_execution hpre
  obtain ⟨source, label, output, target⟩ := t
  obtain rfl : label = .commit id want := hl
  obtain rfl : output = some r := ho
  obtain ⟨txn, hc, ha⟩ := hf.commit_ok_active hok
  obtain ⟨value, hop⟩ := update_buffered hpre hc ha hkey hup
  rcases hf.commit_cases hc ha hb with ⟨he, _⟩ | ⟨_, _, _, _, _, hentry⟩ | ⟨_, _, hconf, _⟩
  · rw [txn.ops_eq_nil.mpr he] at hop
    cases hop
  · exact writesKey_iff.mpr ⟨_, hentry, _, hop, rfl⟩
  · rw [hok] at hconf
    cases hconf

/-- The value after one more section, when the key is only written by updates. -/
private theorem count_step {pre : List Event} {t : Event} {key : String} {f : Option String → String} {n : Nat}
    {x : String} (hpre : machine.Execution pre t.source) (ht : machine.Taken t)
    (hdisc : writesKey key t = true → ∃ id want, t.label = .commit id want ∧ Updates key f (activeCalls id pre))
    (hwas : t.source.store.latestValue key = some ((fun y => f (some y))^[n] x)) :
    t.target.store.latestValue key = some ((fun y => f (some y))^[n + if writesKey key t then 1 else 0] x) := by
  rw [(represents_of_execution hpre).latestValue_eq] at hwas
  rw [(represents_of_execution (hpre.snoc ht)).latestValue_eq, writeLog_concat]
  by_cases hw : writesKey key t = true
  · obtain ⟨id, want, hl, hup⟩ := hdisc hw
    obtain ⟨w, hentry, htouch⟩ := writesKey_iff.mp hw
    rw [hentry, if_pos hw, Option.toList_some, Function.iterate_succ_apply']
    exact update_sees_latest hpre ht hl hentry htouch hup hwas
  · rw [if_neg hw, Nat.add_zero, ← hwas]
    cases hentry : writeEntry t with
    | none => simp
    | some w =>
      obtain ⟨version, ops⟩ := w
      have hnil : entriesFor key version ops = [] := by
        refine entriesFor_eq_nil.mpr (fun op hop he => hw (writesKey_iff.mpr ⟨_, hentry, op, hop, he⟩))
      rw [Option.toList_some, WriteLog.latest_concat, hnil]
      rfl

/-- Take a key that is present, and from then on is written only by transactions that read it
once and then write `f` of what they read. In every interleaving, whatever else is read,
written, aborted or collected, its value is `f` applied once for each commit of such a
transaction that reports OK. -/
theorem counter_counts_commits {tr₀ tr : List Event} {s₀ s : State} (h₀ : machine.Execution tr₀ s₀)
    (h : machine.Path s₀ tr s) {key : String} {f : Option String → String} {x : String}
    (hx : s₀.store.latestValue key = some x)
    (hdisc : ∀ pre t post, tr = pre ++ t :: post → writesKey key t = true →
      ∃ id want, t.label = .commit id want ∧ Updates key f (activeCalls id (tr₀ ++ pre))) :
    s.store.latestValue key = some ((fun y => f (some y))^[tr.countP (writesKey key)] x) ∧
    ∀ pre t post, tr = pre ++ t :: post → (writesKey key t = true ↔
      ∃ id want r, t.label = .commit id want ∧ t.output = some r ∧ r.status.code = .ok ∧
        Updates key f (activeCalls id (tr₀ ++ pre))) := by
  constructor
  · induction h with
    | nil => simpa using hx
    | @snoc tr t hp ht ih =>
      have hwas := ih (fun pre u post he => hdisc pre u (post ++ [t]) (by rw [he]; simp))
      rw [List.countP_append, List.countP_singleton]
      exact count_step (h₀.append hp) ht (hdisc tr t [] rfl) hwas
  · rintro pre t post rfl
    constructor
    · intro hw
      obtain ⟨id, want, hl, hup⟩ := hdisc pre t post rfl hw
      obtain ⟨w, hentry, _⟩ := writesKey_iff.mp hw
      obtain ⟨r, ho, hok⟩ := writeEntry_ok hentry
      exact ⟨id, want, r, hl, ho, hok, hup⟩
    · rintro ⟨id, want, r, hl, ho, hok, hup⟩
      obtain ⟨hpre, ht, _⟩ := h.around
      have hkey : key ≠ "" := by
        rintro rfl
        rw [(represents_of_execution h₀).latestValue_emptyKey] at hx
        cases hx
      exact update_counted (h₀.append hpre) ht hkey hl ho hok hup

/-- Two transactions have read the counter and written back its successor while a pass goes by. -/
private def contendedCounter : List Action :=
  .write (.put "counter" "0") :: .runOnce 0 :: visits 0 3 ++ beginSections 1 ++ beginSections 2 ++
    [.data 1 (.get "counter"), .data 2 (.get "counter"), .data 1 (.put "counter" "1"),
      .data 2 (.put "counter" "1")] ++ visits 0 13 ++ [.finishScan 0, .collectGarbage 0]

private def successor : Option String → String
  | some "0" => "1"
  | _ => "2"

theorem counter_counts_commits_contended :
    ∃ tr₀ t₁ t₂ s₀ s r, machine.Execution tr₀ s₀ ∧ machine.Path s₀ [t₁, t₂] s ∧
      [t₁, t₂].map Transition.label = [.commit 1 true, .commit 2 true] ∧
      [t₁, t₂].countP (writesKey "counter") = 1 ∧ s.store.latestValue "counter" = some "1" ∧
      t₁.output = some r ∧ r.status.code = .ok ∧ Updates "counter" successor (activeCalls 1 tr₀) := by
  have h₀ : machine.Execution (machine.trace contendedCounter) (machine.final contendedCounter) :=
    Machine.scheduled contendedCounter (by decide)
  have hx : (machine.final contendedCounter).store.latestValue "counter" = some "0" := by decide
  obtain ⟨r, r', hcalls, hr⟩ : ∃ r r', activeCalls 1 (machine.trace contendedCounter) =
      [(.get "counter", r), (.put "counter" "1", r')] ∧ r.value = some "0" := ⟨_, _, rfl, by decide⟩
  obtain ⟨t₁, t₂, s, hrun, hw₁, hw₂⟩ : ∃ t₁ t₂ s, machine.run (machine.final contendedCounter)
      [.commit 1 true, .commit 2 true] = some ([t₁, t₂], s) ∧ writesKey "counter" t₁ = true ∧
      writesKey "counter" t₂ = false := ⟨_, _, _, rfl, by decide, by decide⟩
  have hlabels := Machine.run_labels hrun
  have hfirst : t₁.label = .commit 1 true := (List.cons.inj hlabels).1
  have hcount : [t₁, t₂].countP (writesKey "counter") = 1 := by simp [hw₁, hw₂]
  have hdisc : ∀ pre t post, [t₁, t₂] = pre ++ t :: post → writesKey "counter" t = true →
      ∃ id want, t.label = .commit id want ∧
        Updates "counter" successor (activeCalls id (machine.trace contendedCounter ++ pre)) := by
    intro pre t post he hw
    rcases pre with _ | ⟨u, _ | ⟨v, pre⟩⟩
    · obtain ⟨rfl, _⟩ := List.cons.inj he
      refine ⟨1, true, hfirst, r, r', ?_⟩
      rw [List.append_nil, hcalls, hr]
      rfl
    · simp only [List.cons_append, List.nil_append, List.cons.injEq] at he
      rw [← he.2.1, hw₂] at hw
      cases hw
    · simp at he
  obtain ⟨hfinal, hcounted⟩ := counter_counts_commits h₀ (Machine.run_path hrun) hx hdisc
  rw [hcount] at hfinal
  obtain ⟨id, want, out, hl, ho, hok, hup⟩ := (hcounted [] t₁ [t₂] rfl).mp hw₁
  obtain ⟨rfl, _⟩ := Action.commit.inj (hl.symm.trans hfirst)
  rw [List.append_nil] at hup
  exact ⟨_, _, _, _, _, out, h₀, Machine.run_path hrun, hlabels, hcount, hfinal, ho, hok, hup⟩

end MvccLite.Threads
