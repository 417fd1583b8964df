import Mathlib.Data.Set.Card
import MvccLite.Store.Sweeps
import MvccLite.Txn.Manager
import MvccLite.Txn.View

/-! The versioned store and its transactions against the plain store. Calls are
made directly or each in a transaction of its own, with collections at arbitrary
boundaries between any two calls; neither shows. -/
namespace MvccLite
open VersionStore

/-- The data calls of the versioned store itself. -/
def VersionStore.exec (s : VersionStore) : DataCall → VersionStore × Reply
  | .get key => (s, s.get key)
  | .put key value => s.put key value
  | .delete key => s.delete key

/-- One way to issue a call, or a collection between calls. A wrapped call stands
between `Begin` and `Commit`, with collections before and after it. -/
inductive Issue where
  | direct (c : DataCall)
  | wrapped (c : DataCall) (before after : List Nat) (wantKeys : Bool)
  | collectGarbage (safeBoundary : Nat)

def Issue.call : Issue → Option DataCall
  | .direct c | .wrapped c _ _ _ => some c
  | .collectGarbage _ => none

structure Stack where
  store : VersionStore := {}
  manager : TransactionManager := {}

/-- What the calls and the wrapping commits returned, in order. -/
structure Answers where
  calls : List Reply := []
  commits : List Reply := []

namespace Stack

/-- `Begin`, the call, and `Commit` with its `Unregister`. -/
def transact (st : Stack) (c : DataCall) (before after : List Nat) (wantKeys : Bool) : Stack × Answers :=
  let began := st.manager.begin st.store
  let readable := (st.store.collectAll before).1
  let called := began.2.exec readable c
  let committed := called.1.commit (readable.collectAll after).1 wantKeys
  (⟨committed.1, began.1.unregister began.2.txnId⟩, ⟨[called.2], [committed.2.2]⟩)

def issue (st : Stack) : Issue → Stack × Answers
  | .direct c => ({ st with store := (st.store.exec c).1 }, ⟨[(st.store.exec c).2], []⟩)
  | .wrapped c before after wantKeys => st.transact c before after wantKeys
  | .collectGarbage b => ({ st with store := (st.store.collectGarbage b).1 }, {})

def run (st : Stack) : List Issue → Stack × Answers
  | [] => (st, {})
  | i :: rest =>
    let out := st.issue i
    let later := run out.1 rest
    (later.1, ⟨out.2.calls ++ later.2.calls, out.2.commits ++ later.2.commits⟩)

end Stack

/-- The plain store after a sequence of calls. -/
def KVStore.after (s : KVStore) (cs : List DataCall) : KVStore := cs.foldl (fun s c => (s.exec c).1) s

/-- The versioned store holds the map `m`, as of its current version. -/
def VersionStore.Holds (s : VersionStore) (m : Contents) : Prop :=
  ∃ log : WriteLog, Represents log log.length s ∧ log.latest = m

namespace VersionStore.Holds
variable {s : VersionStore} {m : Contents}

theorem empty : Holds {} (fun _ => none) := ⟨[], .empty, rfl⟩

theorem collect (h : s.Holds m) (b : Nat) : (s.collectGarbage b).1.Holds m := by
  obtain ⟨log, hr, hm⟩ := h
  exact ⟨log, (hr.collect b).clamp, hm⟩

theorem collectAll (h : s.Holds m) (bs : List Nat) : (s.collectAll bs).1.Holds m := by
  induction bs generalizing s with
  | nil => exact h
  | cons b bs ih => exact ih (h.collect b)

theorem emptyKey (h : s.Holds m) : m "" = none := by
  obtain ⟨log, hr, rfl⟩ := h
  rw [← hr.latestValue_eq, hr.latestValue_emptyKey]

theorem get_answer (h : s.Holds m) (key : String) : (s.get key).answer = (m.reply (.get key)).answer := by
  obtain ⟨log, hr, rfl⟩ := h
  rw [VersionStore.get_answer, hr.latestValue_eq]
  simp only [Contents.reply]
  split <;> rfl

private theorem append_one (h : s.Holds m) {key : String} (hk : key ≠ "") (out : Option String) :
    (s.append [⟨key, out⟩]).Holds (Function.update m key out) := by
  obtain ⟨log, hr, rfl⟩ := h
  have hkeys : ∀ op ∈ [(⟨key, out⟩ : WriteOp)], op.key ≠ "" := by simpa using hk
  refine ⟨_, (hr.append hkeys).clamp, ?_⟩
  funext k
  rw [WriteLog.latest_concat]
  by_cases he : k = key
  · subst he
    simp [entriesFor]
  · simp [entriesFor, he, Ne.symm he]

/-- A direct call answers from the map and changes it as the map changes. -/
theorem exec (h : s.Holds m) (c : DataCall) :
    (s.exec c).2.answer = (m.reply c).answer ∧ (s.exec c).1.Holds (m.next c) := by
  cases c with
  | get key => exact ⟨h.get_answer key, h⟩
  | put key value =>
    by_cases hk : key = ""
    · simpa [VersionStore.exec, put, Contents.reply, Contents.next, hk] using ⟨rfl, h⟩
    · simpa [VersionStore.exec, put, Contents.reply, Contents.next, hk] using ⟨rfl, h.append_one hk (some value)⟩
  | delete key =>
    by_cases hk : key = ""
    · simpa [VersionStore.exec, delete, Contents.reply, Contents.next, hk] using ⟨rfl, h⟩
    · have hv : s.currentlyVisible key = (m key).isSome := by
        obtain ⟨log, hr, rfl⟩ := h
        rw [currentlyVisible_eq, hr.latestValue_eq]
      cases hm : m key with
      | none =>
        have hnext : m.next (.delete key) = m := m.next_delete_absent hm
        rw [hnext]
        simpa [VersionStore.exec, delete, Contents.reply, hk, hv, hm] using ⟨rfl, h⟩
      | some value =>
        simpa [VersionStore.exec, delete, Contents.reply, Contents.next, hk, hv, hm] using ⟨rfl, h.append_one hk none⟩

/-- Reads at the current version are answered from the map. -/
theorem readsFrom (h : s.Holds m) : Transaction.ReadsFrom s s.currentVersion m := by
  obtain ⟨log, hr, rfl⟩ := h
  intro key
  rw [hr.currentVersion_eq, hr.getAsOf_observed le_rfl, hr.numbered.valueAt_length]

/-- A transaction that began at the current version commits, and lays its write set over the map. -/
theorem commit (h : s.Holds m) {txn : Transaction} (hb : txn.Buffered) (ha : txn.state = .active)
    (hs : txn.snapshotVersion = s.currentVersion) (want : Bool) :
    (txn.commit s want).2.2.status.code = .ok ∧ (txn.commit s want).1.Holds (txn.contents m) := by
  obtain ⟨log, hr, rfl⟩ := h
  rcases Transaction.commit_cases s hb ha want with ⟨he, heq⟩ | ⟨_, _, heq⟩ | ⟨_, ⟨op, _, hw⟩, _⟩
  · rw [heq]
    refine ⟨rfl, log, hr, ?_⟩
    have hempty : txn.writeSet = ∅ := AList.ext he
    rw [Transaction.contents, hempty, WriteSet.overlay_empty]
  · rw [heq]
    exact ⟨rfl, _, (hr.append (fun op hop => hb.keys hop)).clamp, txn.latest_ops log s.nextVersion⟩
  · rw [hs, hr.currentVersion_eq, hr.writtenSince_iff le_rfl] at hw
    obtain ⟨w, hmem, _, hlt⟩ := hw
    exact absurd (hr.numbered.bounds hmem).2 (not_le.mpr hlt)

end VersionStore.Holds

@[simp] theorem VersionStore.nextVersion_collectAll (s : VersionStore) (bs : List Nat) :
    (s.collectAll bs).1.nextVersion = s.nextVersion := by
  induction bs generalizing s with
  | nil => rfl
  | cons b bs ih => exact ih (s.collectGarbage b).1

namespace Stack
variable {st : Stack} {m : Contents}

/-- A wrapped call answers from the map, its commit succeeds, and the map changes as by a direct call. -/
theorem transact_holds (h : st.store.Holds m) (c : DataCall) (before after : List Nat) (want : Bool) :
    ∃ r r', (st.transact c before after want).2 = ⟨[r], [r']⟩ ∧ r.answer = (m.reply c).answer ∧
      r'.status.code = .ok ∧ (st.transact c before after want).1.store.Holds (m.next c) := by
  have hread := h.collectAll before
  have hcommit := hread.collectAll after
  let txn : Transaction := (st.manager.begin st.store).2
  have hsnap : txn.snapshotVersion = ((st.store.collectAll before).1).currentVersion := by
    simp [txn, TransactionManager.begin, currentVersion]
  have hbuf : txn.Buffered := Transaction.buffered_new _ _
  have hempty : txn.contents m = m := WriteSet.overlay_empty m
  obtain ⟨hreply, hnext⟩ := Transaction.exec_refines hbuf rfl (hsnap ▸ hread.readsFrom) c
  obtain ⟨_, hsame, hstate⟩ := txn.exec_fixed (st.store.collectAll before).1 c
  obtain ⟨hok, hholds⟩ := hcommit.commit (hbuf.exec _ c) hstate
    (hsame.trans (hsnap.trans (by simp [currentVersion]))) want
  rw [hempty] at hreply hnext
  rw [hnext] at hholds
  refine ⟨_, _, rfl, ?_, hok, hholds⟩
  rw [← Reply.answer_observed, hreply]

theorem issue_holds (h : st.store.Holds m) (i : Issue) :
    (st.issue i).2.calls.map Reply.answer = (m.replies i.call.toList).map Observed.answer ∧
      (∀ r ∈ (st.issue i).2.commits, r.status.code = .ok) ∧
      (st.issue i).1.store.Holds (m.after i.call.toList) := by
  cases i with
  | direct c =>
    obtain ⟨hanswer, hnext⟩ := h.exec c
    exact ⟨by simpa [issue, Issue.call, Contents.replies] using hanswer, by simp [issue], hnext⟩
  | wrapped c before after want =>
    obtain ⟨r, r', heq, hanswer, hok, hnext⟩ := transact_holds h c before after want
    refine ⟨?_, ?_, hnext⟩
    · simpa [issue, heq, Issue.call, Contents.replies] using hanswer
    · simpa [issue, heq] using hok
  | collectGarbage b => exact ⟨rfl, by simp [issue], h.collect b⟩

theorem run_holds (h : st.store.Holds m) (is : List Issue) :
    (st.run is).2.calls.map Reply.answer = (m.replies (is.filterMap Issue.call)).map Observed.answer ∧
      (∀ r ∈ (st.run is).2.commits, r.status.code = .ok) ∧
      (st.run is).1.store.Holds (m.after (is.filterMap Issue.call)) := by
  induction is generalizing st m with
  | nil => exact ⟨rfl, by simp [run], h⟩
  | cons i rest ih =>
    obtain ⟨h₁, h₂, h₃⟩ := issue_holds h i
    obtain ⟨g₁, g₂, g₃⟩ := ih h₃
    have hcommits : ∀ r ∈ (st.run (i :: rest)).2.commits, r.status.code = .ok := by
      intro r hr
      rcases List.mem_append.mp hr with hr | hr
      · exact h₂ r hr
      · exact g₂ r hr
    have hcalls : (st.run (i :: rest)).2.calls.map Reply.answer =
        (st.issue i).2.calls.map Reply.answer ++ ((st.issue i).1.run rest).2.calls.map Reply.answer :=
      List.map_append
    cases hc : i.call with
    | none =>
      rw [hc] at h₁ g₁ g₃
      rw [List.filterMap_cons_none hc, hcalls, h₁, g₁]
      exact ⟨rfl, hcommits, g₃⟩
    | some c =>
      rw [hc] at h₁ g₁ g₃
      rw [List.filterMap_cons_some hc, hcalls, h₁, g₁]
      exact ⟨rfl, hcommits, g₃⟩

end Stack

theorem KVStore.contents_after (s : KVStore) (cs : List DataCall) : (s.after cs).contents = s.contents.after cs := by
  induction cs generalizing s with
  | nil => rfl
  | cons c cs ih =>
    have hrest := ih (s.exec c).1
    rw [(s.exec_refines c).2] at hrest
    exact hrest

/-- The plain store counts the keys that it has a value for. -/
theorem KVStore.encard_contents (s : KVStore) : {key | s.contents key ≠ none}.encard = s.size := by
  have hset : {key | s.contents key ≠ none} = (s.table.keys.toFinset : Set String) := by
    ext key
    rw [Set.mem_ofPred_eq, List.coe_toFinset, Set.mem_ofPred_eq, ← AList.mem_keys, ← AList.lookup_isSome,
      Option.isSome_iff_ne_none]
    rfl
  rw [hset, Set.encard_coe_eq_coe_finsetCard, List.toFinset_card_of_nodup s.table.keys_nodup]
  simp [AList.keys, List.keys, size]

/-- Every call answers as on the plain store, every wrapping commit succeeds, and in
the end as many keys can be read as the plain store holds. -/
theorem stack_agrees_with_baseline (is : List Issue) :
    (({} : Stack).run is).2.calls.map Reply.answer =
      (KVStore.replies {} (is.filterMap Issue.call)).map Reply.answer ∧
    (∀ r ∈ (({} : Stack).run is).2.commits, r.status.code = .ok) ∧
    {key | ((({} : Stack).run is).1.store.get key).status.code = .ok}.encard =
      (KVStore.after {} (is.filterMap Issue.call)).size := by
  have hempty : (({} : KVStore)).contents = fun _ => none := rfl
  have hstart : ({} : Stack).store.Holds (fun _ => none) := Holds.empty
  obtain ⟨hcalls, hcommits, hholds⟩ := Stack.run_holds hstart is
  refine ⟨?_, hcommits, ?_⟩
  · have hreplies := KVStore.replies_refines {} (is.filterMap Issue.call)
    rw [hcalls, ← hempty, ← hreplies, List.map_map]
    rfl
  · rw [← KVStore.encard_contents, KVStore.contents_after, hempty]
    congr 1
    ext key
    have hget := congrArg Prod.fst (hholds.get_answer key)
    have hnone := hholds.emptyKey
    simp only [Set.mem_ofPred_eq]
    change ((({} : Stack).run is).1.store.get key).status.code = _ at hget
    rw [hget]
    by_cases hk : key = ""
    · subst hk
      simp [Contents.reply, Observed.answer, Observed.refused, hnone]
    · cases hm : Contents.after (fun _ => none) (is.filterMap Issue.call) key <;>
        simp [Contents.reply, Observed.answer, Observed.ofValue, hk, hm]

end MvccLite
