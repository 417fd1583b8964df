import MvccLite.Calls.History

/-! Commit conflicts exactly when it must: with every write to a key of the write
set that somebody made after the transaction began, and with nothing else. -/
namespace MvccLite.Calls
open Library

/-- `Begin` hands out the next identifier. -/
theorem began_id {t : Event} (h : machine.Taken t) {id v : Nat} (hout : t.output = .began id v) :
    t.label = .begin ∧ id = t.source.manager.nextTxnId ∧ id < t.target.manager.nextTxnId := by
  obtain ⟨s, c, r, s'⟩ := t
  change s.step c = some (s', r) at h
  change r = .began id v at hout
  subst hout
  cases c with
  | begin =>
    obtain ⟨rfl, he⟩ := Prod.mk.inj (Option.some.inj h)
    obtain ⟨rfl, _⟩ := Response.began.inj he
    exact ⟨rfl, rfl, Nat.lt_succ_self _⟩
  | data | commit | abort | destroy =>
    obtain ⟨txn, _, heq⟩ := Option.map_eq_some_iff.mp h
    cases (Prod.mk.inj heq).2
  | write | get | getAsOf | currentVersion | keyCount | versionCount | oldestActiveSnapshot
  | activeTransactionCount | runOnce => cases (Prod.mk.inj (Option.some.inj h)).2

/-- Each active transaction has begun, at the version that was current then. -/
theorem began_of_execution {tr : List Event} {s : Sys} (h : machine.Execution tr s) :
    ∀ id txn, s.txns id = some txn → txn.state = .active → ∃ pre tb post, tr = pre ++ tb :: post ∧
      tb.output = .began id txn.snapshotVersion ∧ tb.source.store.currentVersion = txn.snapshotVersion := by
  refine h.invariant (I := fun tr s => ∀ id txn, s.txns id = some txn → txn.state = .active →
    ∃ pre tb post, tr = pre ++ tb :: post ∧ tb.output = .began id txn.snapshotVersion ∧
      tb.source.store.currentVersion = txn.snapshotVersion) (fun _ _ ho => by cases ho) ?_
  intro tr t _ ht hbegan id txn' ho ha
  rcases active_since ht ho ha with ⟨_, hout, _, hv⟩ | ⟨txn, hs, hact, hsame⟩
  · exact ⟨tr, t, [], rfl, hout, hv.symm⟩
  · obtain ⟨pre, tb, post, rfl, hout, hv⟩ := hbegan id txn hs hact
    rw [hsame]
    exact ⟨pre, tb, post ++ [t], by simp, hout, hv⟩

/-- Who is active at the end of a path was active before, if begun before. -/
theorem active_before {s s' : Sys} {tr : List Event} (h : machine.Path s tr s') {id : Nat}
    (hid : id < s.manager.nextTxnId) (hend : ∃ txn, s'.txns id = some txn ∧ txn.state = .active) :
    ∃ txn, s.txns id = some txn ∧ txn.state = .active := by
  revert hend
  refine h.invariant (I := fun _ s' => (∃ txn, s'.txns id = some txn ∧ txn.state = .active) →
    ∃ txn, s.txns id = some txn ∧ txn.state = .active) (fun hend => hend) ?_
  rintro tr t hp ht hback ⟨txn', ho, ha⟩
  rcases active_since ht ho ha with ⟨_, _, rfl, _⟩ | ⟨txn, hs, hact, _⟩
  · exact absurd (nextTxnId_mono hp) (by omega)
  · exact hback ⟨txn, hs, hact⟩

private theorem commit_inactive {t : Event} (h : machine.Taken t) {id : Nat} {want : Bool}
    (hl : t.label = .commit id want) : ¬ ∃ txn, t.target.txns id = some txn ∧ txn.state = .active := by
  rintro ⟨txn', ho, ha⟩
  obtain ⟨txn, _, htarget, _⟩ := commit_taken h hl
  obtain rfl : (txn.commit t.source.store want).2.1 = txn' := by
    simpa [htarget, Sys.commit, Sys.setTxn] using ho
  exact txn.commit_state t.source.store want ha

/-- Somebody else has successfully written a key of the write set. -/
def Overtaken (id : Nat) (txn : Transaction) (since : List Event) (key : String) : Prop :=
  key ∈ txn.writeSet ∧
    ∃ t ∈ since, (∀ want, t.label ≠ .commit id want) ∧ ∃ w ∈ callEntry t, w.Touches key

section conflicts
variable {pre post : List Event} {tb : Event} {s : Sys} {id : Nat} {txn : Transaction}

/-- Validation at the snapshot finds the writes made since the begin, by others. -/
private theorem writtenSince_iff (h : machine.Execution (pre ++ tb :: post) s) (ho : s.txns id = some txn)
    (ha : txn.state = .active) (hout : tb.output = .began id txn.snapshotVersion)
    (hv : tb.source.store.currentVersion = txn.snapshotVersion) {key : String} :
    s.store.writtenSince txn.snapshotVersion key = true ↔
      ∃ t ∈ post, (∀ want, t.label ≠ .commit id want) ∧ ∃ w ∈ callEntry t, w.Touches key := by
  obtain ⟨hpre, htb, hpost⟩ := h.around
  have hr := represents_of_execution h
  have hlen : (callLog pre).length = txn.snapshotVersion := by
    rw [← hv, (represents_of_execution hpre).currentVersion_eq]
  obtain ⟨hbegin, _, hid⟩ := began_id htb hout
  have hnone : callEntry tb = none := by simp [callEntry, hbegin]
  have hlog : callLog (pre ++ tb :: post) = callLog pre ++ callLog post := by
    simp [callLog, List.filterMap_append, hnone]
  rw [hr.writtenSince_iff (swept_of_execution h id txn ho ha), hlog]
  constructor
  · rintro ⟨w, hw, htouch, hlt⟩
    rcases List.mem_append.mp hw with hw | hw
    · have := ((represents_of_execution hpre).numbered.bounds hw).2
      omega
    · obtain ⟨t, ht, he⟩ := List.mem_filterMap.mp hw
      refine ⟨t, ht, fun want hl => ?_, w, he, htouch⟩
      obtain ⟨mid, rest, rfl, hmid, htaken, hrest⟩ := hpost.of_mem ht
      have hdrawn : id < t.target.manager.nextTxnId :=
        hid.trans_le ((nextTxnId_mono hmid).trans (nextTxnId_le htaken))
      exact commit_inactive htaken hl (active_before hrest hdrawn ⟨txn, ho, ha⟩)
  · rintro ⟨t, ht, _, w, he, htouch⟩
    have hw : w ∈ callLog post := List.mem_filterMap.mpr ⟨t, ht, he⟩
    refine ⟨w, List.mem_append_right _ hw, htouch, ?_⟩
    by_contra hle
    have hnum := hr.numbered
    rw [hlog] at hnum
    have hleft := hnum.mem_left (List.mem_append_right _ hw) (by omega)
    have hpw := List.pairwise_append.mp hnum.pairwise
    exact absurd (hpw.2.2 w hleft w hw) (lt_irrefl _)

/-- The keys of the write set that others wrote are those that fail validation. -/
private theorem overtaken_iff (h : machine.Execution (pre ++ tb :: post) s) (ho : s.txns id = some txn)
    (ha : txn.state = .active) (hout : tb.output = .began id txn.snapshotVersion)
    (hv : tb.source.store.currentVersion = txn.snapshotVersion) (key : String) :
    Overtaken id txn post key ↔
      ∃ op ∈ txn.ops, op.key = key ∧ s.store.writtenSince txn.snapshotVersion key = true := by
  rw [Overtaken, txn.mem_writeSet, ← writtenSince_iff h ho ha hout hv]
  simp only [← and_assoc, exists_and_right]

private theorem began_once (h : machine.Execution (pre ++ tb :: post) s)
    (hout : tb.output = .began id txn.snapshotVersion) : ∀ t ∈ pre ++ post, ∀ v, t.output ≠ .began id v := by
  obtain ⟨hpre, htb, hpost⟩ := h.around
  obtain ⟨_, hid, hlt⟩ := began_id htb hout
  intro t ht v hv
  rcases List.mem_append.mp ht with ht | ht
  · obtain ⟨_, _, _, _, htaken, hrest⟩ := hpre.of_mem ht
    have := (began_id htaken hv).2.2
    have := nextTxnId_mono hrest
    omega
  · obtain ⟨_, _, _, hmid, htaken, _⟩ := hpost.of_mem ht
    have := (began_id htaken hv).2.1
    have := nextTxnId_mono hmid
    omega

end conflicts

/-- An active transaction's commit conflicts if and only if somebody else wrote a
key of its write set after its begin, and names exactly those keys; else it
succeeds, at the next version or, with nothing to write, at its snapshot. -/
theorem commit_conflicts_exactly {tr : List Event} {s : Sys} (h : machine.Execution tr s) {id : Nat}
    {txn : Transaction} (ho : s.txns id = some txn) (ha : txn.state = .active) (want : Bool) :
    ∃ pre tb post, tr = pre ++ tb :: post ∧ tb.label = .begin ∧ tb.output = .began id txn.snapshotVersion ∧
      (∀ t ∈ pre ++ post, ∀ v, t.output ≠ .began id v) ∧
      ∃ s' r, machine.step s (.commit id want) = some (s', .reply r) ∧
        (r.status.code = .conflict ↔ ∃ key, Overtaken id txn post key) ∧
        (r.status.code = .conflict → want = true → ∃ keys, r.conflictingKeys = some keys ∧ keys.Nodup ∧
          ∀ key, key ∈ keys ↔ Overtaken id txn post key) ∧
        (r.status.code ≠ .conflict → r.status.code = .ok ∧ r.version =
          some (if txn.writeSet.entries = [] then txn.snapshotVersion else s.store.currentVersion + 1)) := by
  obtain ⟨pre, tb, post, rfl, hout, hv⟩ := began_of_execution h id txn ho ha
  have hover := overtaken_iff h ho ha hout hv
  have hnext : s.store.nextVersion = s.store.currentVersion + 1 := by
    rw [(represents_of_execution h).currentVersion_eq, (represents_of_execution h).next]
  refine ⟨pre, tb, post, rfl, (began_id h.around.2.1 hout).1, hout, began_once h hout,
    (s.commit id txn want).1, (txn.commit s.store want).2.2, by simp [machine, Sys.step, ho, Sys.commit], ?_⟩
  rcases Transaction.commit_cases s.store (buffered_of_execution h ho) ha want with
    ⟨he, heq⟩ | ⟨he, hvalid, heq⟩ | ⟨he, ⟨op, hop, hw⟩, _, _, hobs⟩
  · have hnone : ¬ ∃ key, Overtaken id txn post key := by
      rintro ⟨key, hk⟩
      obtain ⟨op, hop, _⟩ := (hover key).mp hk
      rw [txn.ops_eq_nil.mpr he] at hop
      simp at hop
    simp [heq, hnone, he]
  · have hnone : ¬ ∃ key, Overtaken id txn post key := by
      rintro ⟨key, hk⟩
      obtain ⟨op, hop, rfl, hw⟩ := (hover key).mp hk
      rw [hvalid op hop] at hw
      cases hw
    simp [heq, hnone, he, VersionStore.written, hnext]
  · obtain ⟨hcode, _, _, hlist⟩ := Observed.mk.inj hobs
    refine ⟨⟨fun _ => ⟨op.key, (hover op.key).mpr ⟨op, hop, rfl, hw⟩⟩, fun _ => hcode⟩, fun _ hwant => ?_,
      fun hn => absurd hcode hn⟩
    rw [if_pos hwant] at hlist
    refine ⟨_, hlist, ?_, fun key => ?_⟩
    · exact txn.ops_keys_nodup.sublist (List.filter_sublist.map _)
    · rw [hover]
      simp only [List.mem_map, List.mem_filter]
      constructor
      · rintro ⟨op, ⟨hop, hw⟩, rfl⟩
        exact ⟨op, hop, rfl, hw⟩
      · rintro ⟨op, hop, rfl, hw⟩
        exact ⟨op, ⟨hop, hw⟩, rfl⟩

/-- Two transactions write one key, the second commits, and a pass follows. -/
private def overtakenWriter : List Call :=
  [.begin, .begin, .data 1 (.put "j" "1"), .data 1 (.put "k" "1"), .data 2 (.put "k" "2"), .commit 2 true, .runOnce]

theorem commit_conflicts_exactly_overtaken_writer :
    ∃ tr s txn, machine.Execution tr s ∧ s.txns 1 = some txn ∧ txn.state = .active ∧
      ∃ pre tb post, tr = pre ++ tb :: post ∧ tb.output = .began 1 txn.snapshotVersion ∧
        Overtaken 1 txn post "k" ∧ ¬ Overtaken 1 txn post "j" := by
  obtain ⟨tr, s, txn, h, ho, ha, hcode, hkeys⟩ : ∃ tr s txn, machine.Execution tr s ∧ s.txns 1 = some txn ∧
      txn.state = .active ∧ (txn.commit s.store true).2.2.status.code = .conflict ∧
      (txn.commit s.store true).2.2.conflictingKeys = some ["k"] :=
    ⟨_, _, _, Machine.scheduled overtakenWriter (by decide), rfl, by decide, by decide, by decide⟩
  obtain ⟨pre, tb, post, htr, _, hout, _, s', r, hstep, _, hlist, _⟩ := commit_conflicts_exactly h ho ha true
  obtain rfl : (txn.commit s.store true).2.2 = r := by
    simpa [machine, Sys.step, ho, Sys.commit] using congrArg (Option.map Prod.snd) hstep
  obtain ⟨keys, hk, _, hmem⟩ := hlist hcode rfl
  obtain rfl := Option.some.inj (hkeys.symm.trans hk)
  exact ⟨tr, s, txn, h, ho, ha, pre, tb, post, htr, hout, (hmem "k").mp (by decide), fun hj =>
    absurd ((hmem "j").mpr hj) (by decide)⟩

end MvccLite.Calls
