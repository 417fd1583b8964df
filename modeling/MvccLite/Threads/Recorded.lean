import MvccLite.Threads.SnapshotReads
import MvccLite.Threads.Unguarded

/-! What a transaction has buffered is what its own calls have left, and all of them
were made at one snapshot. -/
namespace MvccLite

def DataCall.key : DataCall → String
  | .get key | .put key _ | .delete key => key

/-- What a call with this reply leaves buffered for the key. -/
def DataCall.leaves (key : String) (was : Option (Option String)) : DataCall × Reply → Option (Option String)
  | (.get _, _) => was
  | (.put key' value, r) => if r.status.code = .ok ∧ key' = key then some (some value) else was
  | (.delete key', r) => if r.status.code = .ok ∧ key' = key then some none else was

/-- What a sequence of calls leaves buffered for the key. -/
def bufferedBy (key : String) (calls : List (DataCall × Reply)) : Option (Option String) :=
  calls.foldl (DataCall.leaves key) none

theorem bufferedBy_concat (key : String) (calls : List (DataCall × Reply)) (call : DataCall × Reply) :
    bufferedBy key (calls ++ [call]) = DataCall.leaves key (bufferedBy key calls) call := by
  simp [bufferedBy]

/-- Only calls on the key count. -/
theorem bufferedBy_filter (key : String) (calls : List (DataCall × Reply)) :
    bufferedBy key (calls.filter (fun call => call.1.key = key)) = bufferedBy key calls := by
  induction calls using List.reverseRecOn with
  | nil => rfl
  | append_singleton calls call ih =>
    rw [List.filter_append, bufferedBy_concat, List.filter_singleton]
    by_cases hk : call.1.key = key
    · rw [decide_eq_true hk, cond_true, bufferedBy_concat, ih]
    · have hsame : DataCall.leaves key (bufferedBy key calls) call = bufferedBy key calls := by
        obtain ⟨c, r⟩ := call
        cases c with
        | get key' => rfl
        | put key' value | delete key' => exact if_neg (fun hh => hk hh.2)
      rw [decide_eq_false hk, cond_false, List.append_nil, hsame, ih]

private theorem lookup_insert_leaves (ws : WriteSet) (key' key : String) (out : Option String) :
    AList.lookup key (ws.insert key' out) = if key' = key then some out else AList.lookup key ws := by
  by_cases hk : key' = key
  · subst hk
    simp
  · rw [AList.lookup_insert_ne (Ne.symm hk), if_neg hk]

theorem Transaction.lookup_exec (txn : Transaction) (store : VersionStore) (c : DataCall) (key : String) :
    (txn.exec store c).1.writeSet.lookup key =
      DataCall.leaves key (txn.writeSet.lookup key) (c, (txn.exec store c).2) := by
  by_cases ha : txn.state = .active
  · cases c with
    | get key' => rfl
    | put key' value =>
      by_cases hk : key' = ""
      · simp [exec, put, ha, hk, DataCall.leaves]
      · simp [exec, put, ha, hk, DataCall.leaves, lookup_insert_leaves]
    | delete key' =>
      by_cases hk : key' = ""
      · simp [exec, delete, ha, hk, DataCall.leaves]
      · rcases WriteSet.lookup_cases txn.writeSet key' with hl | hl | ⟨v, hl⟩
        · by_cases hs : (store.getAsOf key' txn.snapshotVersion).status.code = .ok
          · simp [exec, delete, ha, hk, hl, hs, Status.isOk, DataCall.leaves, lookup_insert_leaves]
          · simp [exec, delete, ha, hk, hl, hs, Status.isOk, DataCall.leaves]
        · simp [exec, delete, ha, hk, hl, DataCall.leaves]
        · simp [exec, delete, ha, hk, hl, DataCall.leaves, lookup_insert_leaves]
  · rw [exec_inactive ha]
    cases c <;> simp [DataCall.leaves, notActive]

namespace Threads
open Library

/-- What a run has recorded of a transaction: nothing before `Begin` has returned, and then
the calls that filled its buffer, all at its own snapshot. -/
def Recorded (id : Nat) (tr : List Event) (s : State) : Prop :=
  match s.clients id with
  | none => s.manager.nextTxnId ≤ id → activeCalls id tr = []
  | some .allocated | some .placed | some (.versionRead _) => activeCalls id tr = []
  | some (.returned txn) => txn.state = .active →
      (∀ key, txn.writeSet.lookup key = bufferedBy key (activeCalls id tr)) ∧
      ∀ t ∈ tr, activeCall id t ≠ none → t.source.snapshot id = some txn.snapshotVersion
  | some (.ending _) | some (.destroying _) => True

namespace Recorded
variable {id : Nat} {tr : List Event} {s s' : State} {a : Action} {r : Option Reply}

private theorem calls_same {t : Event} (h : activeCall id t = none) : activeCalls id (tr ++ [t]) = activeCalls id tr := by
  simp [activeCalls_concat, h]

private theorem snaps_same {t : Event} {v : Nat} (h : activeCall id t = none)
    (hs : ∀ t ∈ tr, activeCall id t ≠ none → t.source.snapshot id = some v) :
    ∀ u ∈ tr ++ [t], activeCall id u ≠ none → u.source.snapshot id = some v := by
  intro u hu hcall
  rcases List.mem_append.mp hu with hu | hu
  · exact hs u hu hcall
  · rw [List.mem_singleton.mp hu] at hcall
    exact absurd h hcall

private theorem other (h : Fires s a r s') (hi : Registered s) (hne : a.client ≠ some id) (hr : Recorded id tr s) :
    Recorded id (tr ++ [⟨s, a, r, s'⟩]) s' := by
  have hcall : activeCall id ⟨s, a, r, s'⟩ = none :=
    activeCall_none (fun c hl => hne (by rw [show a = .data id c from hl]; rfl))
  unfold Recorded at hr ⊢
  rw [calls_same hcall]
  rcases h.client_frame hne with hc | ⟨rfl, hc⟩
  · rw [hc]
    cases hph : s.clients id with
    | none =>
      rw [hph] at hr
      exact fun hle => hr (h.nextTxnId_le.trans hle)
    | some ph =>
      rw [hph] at hr
      cases ph with
      | allocated | placed | versionRead | ending | destroying => exact hr
      | returned txn => exact fun ha => ⟨(hr ha).1, snaps_same hcall (hr ha).2⟩
  · have hn : s.clients s.manager.nextTxnId = none := by
      by_contra hc
      exact absurd (hi.drawn _ hc) (lt_irrefl _)
    rw [hn] at hr
    rw [hc]
    exact hr le_rfl

private theorem data {c : DataCall} {txn : Transaction} (h : Fires s (.data id c) r s')
    (hc : s.clients id = some (.returned txn)) (hc' : s'.clients id = some (.returned (txn.exec s.store c).1))
    (hr : Recorded id tr s) : Recorded id (tr ++ [⟨s, .data id c, r, s'⟩]) s' := by
  obtain rfl : r = some (txn.exec s.store c).2 := by
    cases h with
    | data _ hd =>
      obtain rfl := Phase.returned.inj (Option.some.inj (hd.symm.trans hc))
      rfl
  obtain ⟨_, hsnap, hstate⟩ := txn.exec_fixed s.store c
  unfold Recorded at hr ⊢
  rw [hc] at hr
  rw [hc']
  intro ha'
  have ha : txn.state = .active := hstate ▸ ha'
  obtain ⟨hbuf, hsnaps⟩ := hr ha
  have hcall : activeCall id ⟨s, .data id c, some (txn.exec s.store c).2, s'⟩ =
      some (c, (txn.exec s.store c).2) := by simp [activeCall, hc, ha]
  constructor
  · intro key
    rw [txn.lookup_exec, hbuf, activeCalls_concat, hcall, Option.toList_some, bufferedBy_concat]
  · rw [hsnap]
    refine List.forall_mem_append.mpr ⟨hsnaps, List.forall_mem_singleton.mpr (fun _ => ?_)⟩
    simp [State.snapshot, hc, Phase.snapshot, ha]

private theorem own (h : Fires s a r s') (hi : Registered s) (hown : a.client = some id) (hr : Recorded id tr s) :
    Recorded id (tr ++ [⟨s, a, r, s'⟩]) s' := by
  obtain ⟨ph, ph', hc, hc', hm⟩ := h.moves hown
  have hdrawn : id < s'.manager.nextTxnId := (hi.drawn id (by simp [hc])).trans_le h.nextTxnId_le
  have hgone (hn : s'.clients id = none) : Recorded id (tr ++ [⟨s, a, r, s'⟩]) s' := by
    rw [Recorded, hn]
    exact fun hle => absurd hdrawn (not_lt.mpr hle)
  have hsilent (hne : ∀ c, a ≠ .data id c) : activeCalls id (tr ++ [⟨s, a, r, s'⟩]) = activeCalls id tr :=
    calls_same (activeCall_none hne)
  have hphase := hr
  rw [Recorded, hc] at hphase
  cases hm with
  | placeholder | readVersion =>
    rw [Recorded, hc']
    exact (hsilent (by simp)).trans hphase
  | refine =>
    rw [Recorded, hc']
    have hnil := (hsilent (by simp)).trans hphase
    refine fun _ => ⟨fun key => by rw [hnil]; rfl, fun t ht hcall => absurd hnil ?_⟩
    obtain ⟨call, hsome⟩ := Option.ne_none_iff_exists'.mp hcall
    exact List.ne_nil_of_mem (List.mem_filterMap.mpr ⟨t, ht, hsome⟩)
  | @data txn c => exact data h hc hc' hr
  | commit | abort | destroy =>
    rw [Recorded, hc']
    trivial
  | commitRefused _ hna | abortRefused hna =>
    rw [Recorded, hc']
    exact fun ha => absurd ha hna
  | destroyFinished | unregisterDestroyed => exact hgone hc'
  | @unregister txn =>
    rw [Recorded, hc']
    exact fun ha => absurd ha (hi.settled _ txn hc)

theorem step (h : Fires s a r s') (hi : Registered s) (hr : Recorded id tr s) :
    Recorded id (tr ++ [⟨s, a, r, s'⟩]) s' := by
  by_cases hown : a.client = some id
  · exact own h hi hown hr
  · exact other h hi hown hr

end Recorded

theorem recorded_of_execution {tr : List Event} {s : State} (h : machine.Execution tr s) (id : Nat) :
    Recorded id tr s :=
  h.invariant (I := fun tr s => Recorded id tr s) (fun _ => rfl)
    (fun _ _ hp ht hr => hr.step (taken_fires ht) (registered_of_execution hp))

end Threads
end MvccLite
