import MvccLite.Calls.History

/-! Commits with disjoint write sets. Each gets the verdict it would get if it came
first, and what they leave behind does not depend on their order. -/
namespace MvccLite.Calls
open Library VersionStore TransactionManager

section commit
variable {s s' : VersionStore} {txn : Transaction}

/-- The commit would write something, and validation passes. -/
def Applies (s : VersionStore) (txn : Transaction) : Prop :=
  txn.writeSet.entries ≠ [] ∧ ∀ op ∈ txn.ops, s.writtenSince txn.snapshotVersion op.key = false

instance (s : VersionStore) (txn : Transaction) : Decidable (Applies s txn) :=
  inferInstanceAs (Decidable (_ ∧ _))

/-- What the caller learns about validation. -/
def verdict (r : Reply) : Code × Option (List String) := (r.status.code, r.conflictingKeys)

/-- A commit appends its whole write set or nothing. -/
theorem commit_store (hb : txn.Buffered) (ha : txn.state = .active) (want : Bool) :
    (txn.commit s want).1 = if Applies s txn then s.append txn.ops else s := by
  rcases Transaction.commit_cases s hb ha want with ⟨he, heq⟩ | ⟨he, hv, heq⟩ | ⟨_, ⟨op, hop, hw⟩, h₁, _⟩
  · rw [heq, if_neg (fun h => h.1 he)]
  · rw [heq, if_pos ⟨he, hv⟩]
  · rw [h₁, if_neg]
    intro h
    rw [h.2 op hop] at hw
    cases hw

/-- Stores that validate the keys of the write set alike give the same verdict. -/
theorem verdict_congr (hb : txn.Buffered) (ha : txn.state = .active)
    (hsame : ∀ op ∈ txn.ops, s.writtenSince txn.snapshotVersion op.key = s'.writtenSince txn.snapshotVersion op.key)
    (want : Bool) : verdict (txn.commit s want).2.2 = verdict (txn.commit s' want).2.2 := by
  have hfilter : txn.ops.filter (fun op => s.writtenSince txn.snapshotVersion op.key) =
      txn.ops.filter (fun op => s'.writtenSince txn.snapshotVersion op.key) := List.filter_congr hsame
  rcases Transaction.commit_cases s hb ha want with ⟨he, heq⟩ | ⟨he, hv, heq⟩ | ⟨he, ⟨op, hop, hw⟩, _, _, hobs⟩
  · rcases Transaction.commit_cases s' hb ha want with ⟨_, heq'⟩ | ⟨hne, _⟩ | ⟨hne, _⟩
    · rw [heq, heq']
    · exact absurd he hne
    · exact absurd he hne
  · rcases Transaction.commit_cases s' hb ha want with ⟨hnil, _⟩ | ⟨_, _, heq'⟩ | ⟨_, ⟨op, hop, hw⟩, _⟩
    · exact absurd hnil he
    · rw [heq, heq']
      rfl
    · rw [← hsame op hop, hv op hop] at hw
      cases hw
  · rcases Transaction.commit_cases s' hb ha want with ⟨hnil, _⟩ | ⟨_, hv, _⟩ | ⟨_, _, _, _, hobs'⟩
    · exact absurd hnil he
    · rw [hsame op hop, hv op hop] at hw
      cases hw
    · rw [hfilter, ← hobs'] at hobs
      obtain ⟨hcode, _, _, hkeys⟩ := Observed.mk.inj hobs
      exact Prod.ext hcode hkeys

/-- What another write set leaves alone. -/
theorem history_append_ops {key : String} (hk : key ∉ txn.writeSet) :
    (s.append txn.ops).history key = s.history key := by
  rw [history_append, txn.entriesFor_ops, AList.lookup_eq_none.mpr hk]
  exact List.append_nil _

theorem latestValue_append_ops {key : String} {out : Option String} (hk : txn.writeSet.lookup key = some out) :
    (s.append txn.ops).latestValue key = out := by
  rw [latestValue, history_append, txn.entriesFor_ops, hk]
  simp

theorem writtenSince_congr {snapshot : Nat} {key : String} (h : s.history key = s'.history key) :
    s.writtenSince snapshot key = s'.writtenSince snapshot key := by
  rw [Bool.eq_iff_iff, VersionStore.writtenSince_iff, VersionStore.writtenSince_iff, h]

end commit

/-- Active transactions with pairwise disjoint write sets. -/
structure Family (s : Sys) (ids : List Nat) : Prop where
  nodup : ids.Nodup
  active : ∀ id ∈ ids, ∃ txn, s.txns id = some txn ∧ txn.state = .active
  disjoint : ∀ id ∈ ids, ∀ id' ∈ ids, id ≠ id' → ∀ txn txn', s.txns id = some txn → s.txns id' = some txn' →
    ∀ key ∈ txn.writeSet, key ∉ txn'.writeSet

/-- The verdict that a commit gets in this very state. -/
def firstVerdict (s : Sys) (want : Nat → Bool) (id : Nat) : Option (Code × Option (List String)) :=
  (s.txns id).map (fun txn => verdict (txn.commit s.store (want id)).2.2)

/-- The verdict of a call. -/
def Response.verdict : Response → Option (Code × Option (List String))
  | .reply r => some (Calls.verdict r)
  | _ => none

/-- The transaction's commit would write something, and validation passes. -/
def applies (s : Sys) (id : Nat) : Bool := (s.txns id).any (fun txn => Applies s.store txn)

/-- What the commits of `done` make of the state `s₀`, in whatever order they came. -/
structure Settled (s₀ : Sys) (done : List Nat) (s : Sys) : Prop where
  txns : ∀ id ∉ done, s.txns id = s₀.txns id
  nextVersion : s.store.nextVersion = s₀.store.nextVersion + done.countP (applies s₀)
  written : ∀ id ∈ done, ∀ txn, s₀.txns id = some txn → applies s₀ id = true → ∀ key out,
    txn.writeSet.lookup key = some out → s.store.latestValue key = out
  untouched : ∀ key, (∀ id ∈ done, ∀ txn, s₀.txns id = some txn → applies s₀ id = true → key ∉ txn.writeSet) →
    s.store.history key = s₀.store.history key
  shards : ∀ sh id, (s.manager.shards sh).lookup id =
    if sh = shardFor id ∧ id ∈ done then none else (s₀.manager.shards sh).lookup id

/-- No transaction of `done` writes a key of this one. -/
def Apart (s₀ : Sys) (done : List Nat) (txn : Transaction) : Prop :=
  ∀ id ∈ done, ∀ txn', s₀.txns id = some txn' → ∀ key ∈ txn.writeSet, key ∉ txn'.writeSet

theorem Settled.start (s : Sys) : Settled s [] s where
  txns _ _ := rfl
  nextVersion := rfl
  written _ h := by simp at h
  untouched _ _ := rfl
  shards _ _ := by simp

/-- Every object carries its own identifier and has not buffered the empty key. -/
structure Owned (s : Sys) : Prop where
  txnId : ∀ id txn, s.txns id = some txn → txn.txnId = id
  buffered : ∀ id txn, s.txns id = some txn → txn.Buffered

private theorem Owned.setTxn {s : Sys} (h : Owned s) {id : Nat} {now : Option Transaction}
    (hnow : ∀ txn, now = some txn → txn.txnId = id ∧ txn.Buffered) : Owned (s.setTxn id now) := by
  have hall : ∀ id' txn, (s.setTxn id now).txns id' = some txn → txn.txnId = id' ∧ txn.Buffered := by
    intro id' txn ho
    by_cases he : id' = id
    · subst he
      exact hnow txn (by simpa [Sys.setTxn] using ho)
    · have hold : s.txns id' = some txn := by simpa [Sys.setTxn, he] using ho
      exact ⟨h.txnId id' txn hold, h.buffered id' txn hold⟩
  exact ⟨fun id' txn ho => (hall id' txn ho).1, fun id' txn ho => (hall id' txn ho).2⟩

theorem Owned.step {s s' : Sys} {c : Call} {r : Response} (ho : Owned s) (h : machine.step s c = some (s', r)) :
    Owned s' := by
  have hsame (store : VersionStore) (manager : TransactionManager) (stats : GCStats) :
      Owned { s with store := store, manager := manager, cumulativeStats := stats } := ⟨ho.txnId, ho.buffered⟩
  cases c with
  | begin =>
    obtain ⟨rfl, rfl⟩ := Prod.mk.inj (Option.some.inj h)
    exact (hsame _ _ _).setTxn (by rintro txn ⟨⟩; exact ⟨rfl, Transaction.buffered_new _ _⟩)
  | data id d =>
    obtain ⟨txn, htxn, heq⟩ := Option.map_eq_some_iff.mp h
    obtain ⟨rfl, rfl⟩ := Prod.mk.inj heq
    refine (hsame _ _ _).setTxn ?_
    rintro txn' ⟨⟩
    exact ⟨(txn.exec_fixed s.store d).1.trans (ho.txnId id txn htxn), (ho.buffered id txn htxn).exec s.store d⟩
  | commit id want =>
    obtain ⟨txn, htxn, heq⟩ := Option.map_eq_some_iff.mp h
    obtain ⟨rfl, rfl⟩ := Prod.mk.inj heq
    refine (hsame _ _ _).setTxn ?_
    rintro txn' ⟨⟩
    exact ⟨(txn.commit_fixed s.store want).1.trans (ho.txnId id txn htxn), (ho.buffered id txn htxn).commit s.store want⟩
  | abort id =>
    obtain ⟨txn, htxn, heq⟩ := Option.map_eq_some_iff.mp h
    obtain ⟨rfl, rfl⟩ := Prod.mk.inj heq
    refine (hsame _ _ _).setTxn ?_
    rintro txn' ⟨⟩
    exact ⟨txn.abort_fixed.1.trans (ho.txnId id txn htxn), (ho.buffered id txn htxn).abort⟩
  | destroy id =>
    obtain ⟨txn, htxn, heq⟩ := Option.map_eq_some_iff.mp h
    obtain ⟨rfl, rfl⟩ := Prod.mk.inj heq
    exact (hsame _ _ _).setTxn nofun
  | write | get | getAsOf | currentVersion | keyCount | versionCount | oldestActiveSnapshot
  | activeTransactionCount | runOnce =>
    obtain ⟨rfl, rfl⟩ := Prod.mk.inj (Option.some.inj h)
    exact hsame _ _ _

/-- The states that the calls lead to when anybody may also sweep the store, at any boundary. -/
inductive Reached : Sys → Prop
  | start : Reached {}
  | call {s s' : Sys} {c : Call} {r : Response} : Reached s → machine.step s c = some (s', r) → Reached s'
  | collectGarbage {s : Sys} (b : Nat) : Reached s → Reached { s with store := (s.store.collectGarbage b).1 }

theorem reached_of_execution {tr : List Event} {s : Sys} (h : machine.Execution tr s) : Reached s := by
  induction h with
  | nil => exact .start
  | snoc _ ht ih => exact ih.call ht

theorem Reached.owned {s : Sys} (h : Reached s) : Owned s := by
  induction h with
  | start => exact ⟨nofun, nofun⟩
  | call _ hstep ih => exact ih.step hstep
  | collectGarbage b _ ih => exact ⟨ih.txnId, ih.buffered⟩

section step
variable {s₀ s : Sys} {done : List Nat} {id : Nat} {txn : Transaction}

/-- The commits so far have not touched the keys of the next one. -/
private theorem Settled.same_history (hs : Settled s₀ done s) (hdis : Apart s₀ done txn) {key : String}
    (hk : key ∈ txn.writeSet) : s.store.history key = s₀.store.history key :=
  hs.untouched key (fun id' hid' txn' ho' _ => hdis id' hid' txn' ho' key hk)

/-- One more commit, described by what it leaves of the other transactions, the
store and the registry. -/
private theorem Settled.concat (hs : Settled s₀ done s) (ho : s₀.txns id = some txn)
    (hdis : Apart s₀ done txn) {s' : Sys} (htxns : ∀ id' ≠ id, s'.txns id' = s.txns id')
    (hstore : s'.store = if applies s₀ id then s.store.append txn.ops else s.store)
    (hman : s'.manager = s.manager.unregister id) : Settled s₀ (done ++ [id]) s' where
  txns id' hid' := by
    rw [htxns id' (fun he => hid' (by simp [he])), hs.txns id' (fun hm => hid' (by simp [hm]))]
  nextVersion := by
    rw [hstore, List.countP_append, List.countP_singleton]
    by_cases hc : applies s₀ id
    · simp [hc, hs.nextVersion, Nat.add_assoc]
    · simp [hc, hs.nextVersion]
  written id' hid' txn' ho' hap key out hl := by
    rw [hstore]
    rcases List.mem_append.mp hid' with hm | hm
    · have hout : key ∉ txn.writeSet := fun hk =>
        hdis id' hm txn' ho' key hk (AList.lookup_isSome.mp (by simp [hl]))
      rw [← hs.written id' hm txn' ho' hap key out hl]
      split
      · rw [latestValue, history_append_ops hout, latestValue]
      · rfl
    · obtain rfl := List.mem_singleton.mp hm
      obtain rfl : txn = txn' := Option.some.inj (ho.symm.trans ho')
      rw [if_pos hap]
      exact latestValue_append_ops hl
  untouched key hout := by
    have hold : s.store.history key = s₀.store.history key :=
      hs.untouched key (fun id' hm => hout id' (by simp [hm]))
    rw [hstore]
    split
    · rename_i hc
      rw [history_append_ops (hout id (by simp) txn ho hc), hold]
    · exact hold
  shards sh id' := by
    rw [hman, lookup_unregister, hs.shards]
    by_cases he : id' = id
    · subst he
      by_cases hsh : sh = shardFor id'
      · simp [hsh]
      · simp [hsh]
    · simp [he]

theorem Settled.commit (h₀ : Owned s₀) (hs : Settled s₀ done s) (hid : id ∉ done)
    (ho : s₀.txns id = some txn) (ha : txn.state = .active)
    (hdis : Apart s₀ done txn) (want : Nat → Bool) :
    ∃ s' r, machine.step s (.commit id (want id)) = some (s', r) ∧ r.verdict = firstVerdict s₀ want id ∧
      Settled s₀ (done ++ [id]) s' := by
  have hnow : s.txns id = some txn := (hs.txns id hid).trans ho
  have hbuf : txn.Buffered := h₀.buffered id txn ho
  have hsame : ∀ op ∈ txn.ops, s.store.writtenSince txn.snapshotVersion op.key =
      s₀.store.writtenSince txn.snapshotVersion op.key := fun op hop =>
    writtenSince_congr (hs.same_history hdis (txn.mem_writeSet.mpr ⟨op, hop, rfl⟩))
  have happ : applies s₀ id = true ↔ Applies s.store txn := by
    have hfirst : Applies s.store txn ↔ Applies s₀.store txn :=
      and_congr_right (fun _ => forall₂_congr (fun op hop => by rw [hsame op hop]))
    simp [applies, ho, hfirst]
  refine ⟨(s.commit id txn (want id)).1, (s.commit id txn (want id)).2, by simp [machine, Sys.step, hnow], ?_,
    hs.concat ho hdis ?_ ?_ ?_⟩
  · rw [firstVerdict, ho, Option.map_some, ← verdict_congr hbuf ha hsame]
    rfl
  · intro id' hne
    simp [Sys.commit, Sys.setTxn, hne]
  · simp only [happ]
    exact commit_store hbuf ha (want id)
  · simp [Sys.commit, Sys.released, ha, h₀.txnId id txn ho]

end step

section run
variable {s₀ : Sys}

theorem settled_run (h₀ : Owned s₀) (want : Nat → Bool) {done ids : List Nat} {s : Sys}
    (hf : Family s₀ (done ++ ids)) (hs : Settled s₀ done s) :
    ∃ tr' s', machine.run s (ids.map (fun id => .commit id (want id))) = some (tr', s') ∧
      Settled s₀ (done ++ ids) s' ∧
      tr'.map (fun t => (t.label, t.output.verdict)) =
        ids.map (fun id => (Call.commit id (want id), firstVerdict s₀ want id)) := by
  induction ids generalizing done s with
  | nil => exact ⟨[], s, rfl, by simpa using hs, rfl⟩
  | cons id ids ih =>
    have hid : id ∉ done := fun hm => (List.nodup_append.mp hf.nodup).2.2 id hm id (by simp) rfl
    obtain ⟨txn, ho, ha⟩ := hf.active id (by simp)
    have hdis : Apart s₀ done txn := by
      intro id' hm txn' ho'
      have hne : id ≠ id' := fun he => hid (he ▸ hm)
      exact hf.disjoint id (by simp) id' (by simp [hm]) hne txn txn' ho ho'
    obtain ⟨s', r, hstep, hverdict, hs'⟩ := hs.commit h₀ hid ho ha hdis want
    have happend : done ++ id :: ids = done ++ [id] ++ ids := by simp
    rw [happend] at hf ⊢
    obtain ⟨tr', s'', hrun, hend, hverdicts⟩ := ih hf hs'
    refine ⟨⟨s, .commit id (want id), r, s'⟩ :: tr', s'', ?_, hend, ?_⟩
    · rw [List.map_cons, Machine.run, hstep]
      simp [hrun]
    · rw [List.map_cons, List.map_cons, hverdicts, hverdict]

/-- Two states that the same commits have settled read alike. -/
theorem Settled.latestValue_agree {ids ids' : List Nat} {s s' : Sys} (hp : ids.Perm ids')
    (hs : Settled s₀ ids s) (hs' : Settled s₀ ids' s') (key : String) :
    s.store.latestValue key = s'.store.latestValue key := by
  by_cases hw : ∃ id ∈ ids, ∃ txn, s₀.txns id = some txn ∧ applies s₀ id = true ∧ key ∈ txn.writeSet
  · obtain ⟨id, hid, txn, ho, hap, hk⟩ := hw
    obtain ⟨out, hl⟩ := Option.isSome_iff_exists.mp (AList.lookup_isSome.mpr hk)
    rw [hs.written id hid txn ho hap key out hl, hs'.written id (hp.mem_iff.mp hid) txn ho hap key out hl]
  · have hout : ∀ id ∈ ids, ∀ txn, s₀.txns id = some txn → applies s₀ id = true → key ∉ txn.writeSet :=
      fun id hid txn ho hap hk => hw ⟨id, hid, txn, ho, hap, hk⟩
    have hhist : s.store.history key = s'.store.history key := by
      rw [hs.untouched key hout, hs'.untouched key (fun id hid => hout id (hp.mem_iff.mpr hid))]
    rw [latestValue, latestValue, hhist]

end run

theorem Family.perm {s : Sys} {ids ids' : List Nat} (hf : Family s ids) (hp : ids.Perm ids') : Family s ids' where
  nodup := hp.nodup_iff.mp hf.nodup
  active id hid := hf.active id (hp.mem_iff.mpr hid)
  disjoint id hid id' hid' := hf.disjoint id (hp.mem_iff.mpr hid) id' (hp.mem_iff.mpr hid')

/-- Whatever was swept before, committing a family with disjoint write sets in any two
orders gives each member the same verdict, and leaves the same current version, latest
reads and registry. -/
theorem disjoint_commits_commute {s : Sys} (h : Reached s) {ids ids' : List Nat}
    (hf : Family s ids) (hp : ids.Perm ids') (want : Nat → Bool) :
    ∃ out out', machine.run s (ids.map (fun id => .commit id (want id))) = some out ∧
      machine.run s (ids'.map (fun id => .commit id (want id))) = some out' ∧
      (out.1.map (fun t => (t.label, t.output.verdict))).Perm (out'.1.map (fun t => (t.label, t.output.verdict))) ∧
      out.2.store.currentVersion = out'.2.store.currentVersion ∧
      (∀ key, (out.2.store.get key).answer = (out'.2.store.get key).answer) ∧
      ∀ sh id, (out.2.manager.shards sh).lookup id = (out'.2.manager.shards sh).lookup id := by
  obtain ⟨tr₁, s₁, hrun₁, hs₁, hv₁⟩ := settled_run h.owned want (show Family s ([] ++ ids) from hf) (.start s)
  obtain ⟨tr₂, s₂, hrun₂, hs₂, hv₂⟩ := settled_run h.owned want (show Family s ([] ++ ids') from hf.perm hp) (.start s)
  rw [List.nil_append] at hs₁ hs₂
  refine ⟨(tr₁, s₁), (tr₂, s₂), hrun₁, hrun₂, ?_, ?_, fun key => ?_, fun sh id => ?_⟩
  · rw [hv₁, hv₂]
    exact hp.map _
  · rw [currentVersion, currentVersion, hs₁.nextVersion, hs₂.nextVersion, hp.countP_eq]
  · rw [get_answer, get_answer, hs₁.latestValue_agree hp hs₂]
  · rw [hs₁.shards, hs₂.shards]
    simp only [hp.mem_iff]

/-- Two writers, the second of them overtaken by a direct write, and a reader. -/
private def disjointWriters : List Call :=
  [.write (.put "b" "1"), .begin, .begin, .begin, .data 1 (.put "a" "1"), .data 2 (.delete "b"), .data 3 (.get "a"),
    .write (.put "b" "2")]

/-- They are still active when somebody sweeps above their snapshots. -/
private def overswept : Sys :=
  { machine.final disjointWriters with store := ((machine.final disjointWriters).store.collectGarbage 9).1 }

theorem disjoint_commits_commute_overtaken_writer :
    ∃ s, Reached s ∧ s.store.history "b" = [⟨2, some "2"⟩] ∧ Family s [1, 2, 3] ∧ ∃ out out',
      machine.run s [.commit 1 false, .commit 2 true, .commit 3 false] = some out ∧
      machine.run s [.commit 3 false, .commit 2 true, .commit 1 false] = some out' ∧
      out.2.store.currentVersion = 3 ∧ out'.2.store.currentVersion = 3 ∧
      (Call.commit 2 true, some (Code.conflict, some ["b"])) ∈ out'.1.map (fun t => (t.label, t.output.verdict)) := by
  have h : Reached overswept :=
    (reached_of_execution (Machine.scheduled disjointWriters (by decide))).collectGarbage 9
  have hf : Family overswept [1, 2, 3] := by
    refine ⟨by decide, ?_, ?_⟩
    · intro id hid
      have hall : ∀ id ∈ [1, 2, 3], (overswept.txns id).map Transaction.state = some .active := by decide
      simpa [Option.map_eq_some_iff] using hall id hid
    · intro id hid id' hid' hne txn txn' ho ho' key hk hk'
      have hall : ∀ id ∈ [1, 2, 3], ∀ id' ∈ [1, 2, 3], id ≠ id' →
          ∀ key ∈ (overswept.txns id).elim [] (fun txn => txn.writeSet.keys),
            key ∉ (overswept.txns id').elim [] (fun txn => txn.writeSet.keys) := by decide
      have hout := hall id hid id' hid' hne key (by simpa [ho] using AList.mem_keys.mp hk)
      exact hout (by simpa [ho'] using AList.mem_keys.mp hk')
  obtain ⟨out, out', hrun, hrun', hverdicts, hversion, _⟩ :=
    disjoint_commits_commute h hf (show [1, 2, 3].Perm [3, 2, 1] by decide) (fun id => decide (id = 2))
  have hfirst : (machine.run overswept [.commit 1 false, .commit 2 true, .commit 3 false]).map
      (fun out => (out.2.store.currentVersion, out.1.map (fun t => (t.label, t.output.verdict)))) =
      some (3, [(.commit 1 false, some (.ok, none)), (.commit 2 true, some (.conflict, some ["b"])),
        (.commit 3 false, some (.ok, none))]) := rfl
  have hrun₁ : machine.run overswept [.commit 1 false, .commit 2 true, .commit 3 false] = some out := hrun
  rw [hrun₁] at hfirst
  obtain ⟨hthree, hlist⟩ := Prod.mk.inj (Option.some.inj hfirst)
  refine ⟨_, h, by decide, hf, out, out', hrun, hrun', hthree, hversion.symm.trans hthree, ?_⟩
  exact hverdicts.mem_iff.mp (by rw [hlist]; simp)

end MvccLite.Calls
