import MvccLite.Threads.Mirror

/-! What sections leave alone, and the log of successful writes that the store
replays in every interleaving. -/
namespace MvccLite.Threads
open Library TransactionManager

/-- The snapshot of a transaction that has read it and is not yet unregistered. -/
def Phase.snapshot : Phase → Option Nat
  | .allocated | .placed => none
  | .versionRead snapshot => some snapshot
  | .returned txn => if txn.state = .active then some txn.snapshotVersion else none
  | .ending txn | .destroying txn => some txn.snapshotVersion

def State.snapshot (s : State) (id : Nat) : Option Nat := (s.clients id).bind Phase.snapshot

/-- The pass that takes the section. -/
def Action.pass : Action → Option Nat
  | .runOnce p | .visitShard p | .finishScan p | .collectGarbage p | .addStats p => some p
  | .fetchTxnId | .placeholder _ | .readVersion _ | .refine _ | .data _ _ | .commit _ _ | .abort _
  | .destroy _ | .unregister _ | .write _ => none

/-- A registered entry is the placeholder or the snapshot itself. -/
theorem State.entry_eq {s : State} {id e : Nat} (h : s.entry id = some e) : e = 0 ∨ s.snapshot id = some e := by
  unfold State.entry at h
  unfold State.snapshot
  cases hc : s.clients id with
  | none => simp [hc] at h
  | some ph =>
    rw [hc] at h
    cases ph with
    | allocated => simp [Phase.entry] at h
    | placed | versionRead => exact .inl (Option.some.inj h).symm
    | returned | ending | destroying => exact .inr h

/-- Whoever has read a snapshot is in the registry, at or below it. -/
theorem State.entry_le {s : State} {id v : Nat} (h : s.snapshot id = some v) :
    ∃ e, s.entry id = some e ∧ e ≤ v := by
  unfold State.snapshot at h
  unfold State.entry
  cases hc : s.clients id with
  | none => simp [hc] at h
  | some ph =>
    rw [hc] at h
    cases ph with
    | allocated | placed => simp [Phase.snapshot] at h
    | versionRead => exact ⟨0, rfl, Nat.zero_le v⟩
    | returned | ending | destroying => exact ⟨v, h, le_rfl⟩

section frames
variable {s s' : State} {a : Action} {r : Option Reply}

/-- A section of somebody else leaves a pass alone. -/
theorem Fires.pass_frame (h : Fires s a r s') {p : Nat} (ha : a.pass ≠ some p) : s'.passes p = s.passes p := by
  cases h with
  | runOnce | visitShard | finishScan | collectGarbage | addStats =>
    exact Function.update_of_ne (fun he => ha (congrArg some he.symm)) ..
  | _ => rfl

theorem Fires.passes_eq (h : Fires s a r s') (ha : a.pass = none) : s'.passes = s.passes := by
  funext p
  apply h.pass_frame
  simp [ha]

/-- Snapshots only appear by reading the current version. -/
theorem Fires.snapshot_of (h : Fires s a r s') (hi : Registered s) {id v : Nat} (hv : s'.snapshot id = some v) :
    s.snapshot id = some v ∨ a = .readVersion id ∧ v = s.store.currentVersion := by
  by_cases hown : a.client = some id
  · obtain ⟨ph, ph', hc, hc', hm⟩ := h.moves hown
    rw [State.snapshot, hc'] at hv
    rw [State.snapshot, hc]
    cases hm with
    | placeholder | destroyFinished | unregisterDestroyed => cases hv
    | readVersion => exact .inr ⟨rfl, (Option.some.inj hv).symm⟩
    | refine => exact .inl (by simpa [Phase.snapshot] using hv)
    | @data txn c => exact .inl (by simpa [Phase.snapshot, txn.exec_fixed s.store c] using hv)
    | @commit txn want ha => exact .inl (by simpa [Phase.snapshot, txn.commit_fixed s.store want, ha] using hv)
    | commitRefused | abortRefused => exact .inl hv
    | @abort txn ha => exact .inl (by simpa [Phase.snapshot, txn.abort_fixed, ha] using hv)
    | destroy ha => exact .inl (by simpa [Phase.snapshot, ha] using hv)
    | @unregister txn => simp [Phase.snapshot, hi.settled _ txn hc] at hv
  · rcases h.client_frame hown with hc | ⟨_, hc⟩
    · exact .inl (by rwa [State.snapshot, hc] at hv)
    · simp [State.snapshot, hc, Phase.snapshot] at hv

/-- An object is new, or comes from a call on the one that was there. -/
theorem Fires.object_of (h : Fires s a r s') {id : Nat} {txn' : Transaction} (ho : s'.object id = some txn') :
    s.object id = some txn' ∨
    (∃ v, a = .refine id ∧ txn' = { txnId := id, snapshotVersion := v }) ∨
    ∃ txn, s.clients id = some (.returned txn) ∧
      ((∃ c, a = .data id c ∧ txn' = (txn.exec s.store c).1) ∨
        (∃ want, a = .commit id want ∧ txn' = (txn.commit s.store want).2.1) ∨
        a = .abort id ∧ txn' = txn.abort.1) := by
  by_cases hown : a.client = some id
  · obtain ⟨ph, ph', hc, hc', hm⟩ := h.moves hown
    rw [State.object, hc'] at ho
    rw [State.object, hc]
    cases hm with
    | placeholder | readVersion | destroyFinished | unregisterDestroyed => cases ho
    | @refine v => exact .inr (.inl ⟨v, rfl, (Option.some.inj ho).symm⟩)
    | @data txn c => exact .inr (.inr ⟨txn, rfl, .inl ⟨c, rfl, (Option.some.inj ho).symm⟩⟩)
    | @commit txn want ha => exact .inr (.inr ⟨txn, rfl, .inr (.inl ⟨want, rfl, (Option.some.inj ho).symm⟩)⟩)
    | @abort txn ha => exact .inr (.inr ⟨txn, rfl, .inr (.inr ⟨rfl, (Option.some.inj ho).symm⟩)⟩)
    | commitRefused | abortRefused | destroy | unregister => exact .inl ho
  · rcases h.client_frame hown with hc | ⟨_, hc⟩
    · exact .inl (by rwa [State.object, hc] at ho)
    · simp [State.object, hc, Phase.object] at ho

end frames

/-- No transaction has buffered the empty key. -/
def AllBuffered (s : State) : Prop := ∀ id txn, s.object id = some txn → txn.Buffered

theorem AllBuffered.step {s s' : State} {a : Action} {r : Option Reply} (h : Fires s a r s')
    (hb : AllBuffered s) : AllBuffered s' := by
  intro id txn' ho
  rcases h.object_of ho with h | ⟨v, _, rfl⟩ | ⟨txn, hc, hcall⟩
  · exact hb id txn' h
  · exact Transaction.buffered_new id v
  · have ht : txn.Buffered := hb id txn (by simp [State.object, hc, Phase.object])
    rcases hcall with ⟨c, _, rfl⟩ | ⟨want, _, rfl⟩ | ⟨_, rfl⟩
    · exact ht.exec s.store c
    · exact ht.commit s.store want
    · exact ht.abort

theorem allBuffered_of_execution {tr : List Event} {s : State} (h : machine.Execution tr s) : AllBuffered s :=
  h.invariant (I := fun _ s => AllBuffered s) (fun _ _ ho => by cases ho)
    (fun _ _ _ ht hb => hb.step (taken_fires ht))

/-- The log entry of a section: a direct write, or a commit with something to write. -/
def writeEntry (t : Event) : Option LoggedWrite :=
  match t.label, t.output with
  | .write c, some r => loggedWrite c.ops r
  | .commit id _, some r =>
    match t.source.clients id with
    | some (.returned txn) => txn.commitEntry r
    | _ => none
  | _, _ => none

/-- The boundary of a section that sweeps the store. -/
def sweepBoundary (t : Event) : Option Nat :=
  match t.label with
  | .collectGarbage p =>
    match t.source.passes p with
    | .bounded b => some b
    | _ => none
  | _ => none

/-- The successful writes of a run, direct or by commit, with their versions. -/
def writeLog (tr : List Event) : WriteLog := tr.filterMap writeEntry

/-- The boundaries that the store was swept at. -/
def boundaries (tr : List Event) : List Nat := tr.filterMap sweepBoundary

/-- The section neither changes the store nor enters the log. -/
def LeavesStore (t : Event) : Prop := t.target.store = t.source.store ∧ writeEntry t = none

theorem writeLog_concat (tr : List Event) (t : Event) :
    writeLog (tr ++ [t]) = writeLog tr ++ (writeEntry t).toList := filterMap_concat _ _ _

theorem boundaries_concat (tr : List Event) (t : Event) :
    boundaries (tr ++ [t]) = boundaries tr ++ (sweepBoundary t).toList := filterMap_concat _ _ _

/-- Only a call that reports OK is logged. -/
theorem writeEntry_ok {t : Event} {w : LoggedWrite} (h : writeEntry t = some w) :
    ∃ r, t.output = some r ∧ r.status.code = .ok := by
  unfold writeEntry at h
  split at h
  · rename_i c r _ ho
    exact ⟨r, ho, (Option.ite_none_right_eq_some.mp h).1⟩
  · rename_i id want r _ ho
    split at h
    · rename_i txn _
      obtain ⟨_, hlog⟩ := Option.ite_none_left_eq_some.mp h
      exact ⟨r, ho, (Option.ite_none_right_eq_some.mp hlog).1⟩
    · cases h
  · cases h

/-- A commit that reports OK is one of an active transaction. -/
theorem Fires.commit_ok_active {s s' : State} {id : Nat} {want : Bool} {r : Reply}
    (h : Fires s (.commit id want) (some r) s') (hok : r.status.code = .ok) :
    ∃ txn, s.clients id = some (.returned txn) ∧ txn.state = .active := by
  cases h with
  | commit _ hc ha => exact ⟨_, hc, ha⟩
  | commitRefused => exact absurd hok Transaction.notActive_failed

/-- Commit of an active transaction: nothing to write, applied in full, or in conflict. -/
theorem Fires.commit_cases {s s' : State} {id : Nat} {want : Bool} {r : Reply} {txn : Transaction}
    (h : Fires s (.commit id want) (some r) s') (hc : s.clients id = some (.returned txn))
    (ha : txn.state = .active) (hb : AllBuffered s) :
    (txn.writeSet.entries = [] ∧ r.status.code = .ok ∧ LeavesStore ⟨s, .commit id want, some r, s'⟩) ∨
    (txn.writeSet.entries ≠ [] ∧ (∀ op ∈ txn.ops, s.store.writtenSince txn.snapshotVersion op.key = false) ∧
      r = s.store.written ∧ s'.store = s.store.append txn.ops ∧ (∀ op ∈ txn.ops, op.key ≠ "") ∧
      writeEntry ⟨s, .commit id want, some r, s'⟩ = some ⟨s.store.nextVersion, txn.ops⟩) ∨
    (txn.writeSet.entries ≠ [] ∧ (∃ op ∈ txn.ops, s.store.writtenSince txn.snapshotVersion op.key = true) ∧
      r.status.code = .conflict ∧ LeavesStore ⟨s, .commit id want, some r, s'⟩) := by
  cases h with
  | commitRefused want hc' hna =>
    obtain rfl : txn = _ := by simpa [hc] using hc'
    exact absurd ha hna
  | @commit _ txn' want hc' _ =>
    obtain rfl : txn' = txn := by simpa [hc'] using hc
    have ht : txn'.Buffered := hb id txn' (by simp [State.object, hc', Phase.object])
    rcases Transaction.commit_cases s.store ht ha want with ⟨he, heq⟩ | ⟨he, hv, heq⟩ | ⟨he, hw, h₁, _, h₃⟩
    · refine .inl ⟨he, by rw [heq]; rfl, by simp [heq], ?_⟩
      simp [writeEntry, Transaction.commitEntry, hc', he]
    · refine .inr (.inl ⟨he, hv, by rw [heq], by simp [heq], fun op hop => ht.keys hop, ?_⟩)
      simp [writeEntry, Transaction.commitEntry, hc', he, heq]
    · have hf : (txn'.commit s.store want).2.2.Failed := Reply.failed_of_observed h₃ (by simp)
      refine .inr (.inr ⟨he, hw, congrArg Observed.code h₃, h₁, ?_⟩)
      simp [writeEntry, Transaction.commitEntry, hc', he, hf.not_logged]

/-- Everything a section can do to the store. -/
theorem Fires.store_cases {s s' : State} {a : Action} {r : Option Reply} (h : Fires s a r s')
    (hb : AllBuffered s) :
    (s'.store = s.store ∧ writeEntry ⟨s, a, r, s'⟩ = none ∧ sweepBoundary ⟨s, a, r, s'⟩ = none) ∨
    (∃ ops, s'.store = s.store.append ops ∧ (∀ op ∈ ops, op.key ≠ "") ∧
      writeEntry ⟨s, a, r, s'⟩ = some ⟨s.store.nextVersion, ops⟩ ∧ sweepBoundary ⟨s, a, r, s'⟩ = none) ∨
    (∃ p b, a = .collectGarbage p ∧ s.passes p = .bounded b ∧ s'.store = (s.store.collectGarbage b).1 ∧
      writeEntry ⟨s, a, r, s'⟩ = none ∧ sweepBoundary ⟨s, a, r, s'⟩ = some b) := by
  cases h with
  | fetchTxnId | placeholder | readVersion | refine | data | abort | abortRefused | destroy
  | destroyFinished | unregister | unregisterDestroyed | runOnce | visitShard | finishScan | addStats =>
    exact .inl ⟨rfl, rfl, rfl⟩
  | commitRefused want hc ha =>
    refine .inl ⟨rfl, ?_, rfl⟩
    simp [writeEntry, Transaction.commitEntry, hc, Transaction.notActive_failed.not_logged]
  | @commit id txn want hc ha =>
    rcases (Fires.commit want hc ha).commit_cases hc ha hb with
      ⟨_, _, hs, hw⟩ | ⟨_, _, _, hs, hk, hw⟩ | ⟨_, _, _, hs, hw⟩
    · exact .inl ⟨hs, hw, rfl⟩
    · exact .inr (.inl ⟨txn.ops, hs, hk, hw, rfl⟩)
    · exact .inl ⟨hs, hw, rfl⟩
  | write c =>
    rcases s.store.write_cases c with ⟨h₁, hf⟩ | ⟨heq, hk⟩
    · exact .inl ⟨h₁, by simp [writeEntry, hf.not_logged], rfl⟩
    · exact .inr (.inl ⟨c.ops, by simp [heq], hk, by simp [writeEntry, heq], rfl⟩)
  | @collectGarbage p b hc => exact .inr (.inr ⟨p, b, rfl, hc, rfl, rfl, by simp [sweepBoundary, hc]⟩)

/-- A successful commit with something to write has passed validation. -/
theorem Fires.commit_ok {s s' : State} {id : Nat} {want : Bool} {r : Reply} {txn : Transaction}
    (h : Fires s (.commit id want) (some r) s') (hc : s.clients id = some (.returned txn)) (hb : AllBuffered s)
    (hok : r.status.code = .ok) (hne : txn.writeSet.entries ≠ []) :
    txn.state = .active ∧ r = s.store.written ∧ s'.store = s.store.append txn.ops ∧
      ∀ op ∈ txn.ops, s.store.writtenSince txn.snapshotVersion op.key = false := by
  have ha : txn.state = .active := by
    obtain ⟨txn', hc', ha⟩ := h.commit_ok_active hok
    obtain rfl : txn' = txn := by simpa [hc'] using hc
    exact ha
  rcases h.commit_cases hc ha hb with ⟨he, _⟩ | ⟨_, hv, hr, hs, _⟩ | ⟨_, _, hcode, _⟩
  · exact absurd he hne
  · exact ⟨ha, hr, hs, hv⟩
  · rw [hok] at hcode
    cases hcode

theorem Fires.currentVersion_le {s s' : State} {a : Action} {r : Option Reply} (h : Fires s a r s')
    (hb : AllBuffered s) : s.store.currentVersion ≤ s'.store.currentVersion := by
  rcases h.store_cases hb with ⟨he, _⟩ | ⟨ops, he, _⟩ | ⟨p, b, _, _, he, _⟩
  · rw [he]
  · rw [he]
    exact Nat.sub_le_sub_right (Nat.le_succ _) 1
  · rw [he]
    rfl

/-- In every interleaving the store is a replay of the successful writes, for
readers at or above the highest boundary swept so far. -/
theorem represents_of_execution {tr : List Event} {s : State} (h : machine.Execution tr s) :
    Represents (writeLog tr) (highest (boundaries tr)) s.store := by
  refine h.invariant (I := fun tr s => Represents (writeLog tr) (highest (boundaries tr)) s.store) .empty ?_
  intro tr t hp ht hr
  rw [writeLog_concat, boundaries_concat]
  rcases (taken_fires ht).store_cases (allBuffered_of_execution hp) with
    ⟨he, hw, hs⟩ | ⟨ops, he, hk, hw, hs⟩ | ⟨p, b, _, _, he, hw, hs⟩
  · rw [hw, hs, he]
    simpa using hr
  · rw [hw, hs, he]
    simpa using hr.append hk
  · rw [hw, hs, he]
    simpa using hr.collect b

end MvccLite.Threads
