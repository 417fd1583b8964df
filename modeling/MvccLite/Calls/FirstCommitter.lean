import MvccLite.Calls.Disjoint

/-! First committer wins. When several active transactions commit one after the other,
whatever their write sets, each gets through if and only if it would have got through
at once and no earlier winner has written one of its keys. -/
namespace MvccLite.Calls
open Library VersionStore TransactionManager

/-- One of these transactions writes the key. -/
def WrittenBy (s : Sys) (ids : List Nat) (key : String) : Prop :=
  ∃ id ∈ ids, ∃ txn, s.txns id = some txn ∧ key ∈ txn.writeSet

/-- No key of the transaction has been written since its snapshot, by anybody before or by one of these since. -/
def Unopposed (s : Sys) (won : List Nat) (id : Nat) : Prop :=
  ∀ txn, s.txns id = some txn → ∀ key ∈ txn.writeSet,
    s.store.writtenSince txn.snapshotVersion key = false ∧ ¬ WrittenBy s won key

/-- Who gets through, when these commit in this order. -/
inductive Race (s : Sys) : List Nat → List Nat → Prop
  | nil : Race s [] []
  | win {ids won : List Nat} {id : Nat} : Race s ids won → Unopposed s won id → Race s (ids ++ [id]) (won ++ [id])
  | lose {ids won : List Nat} {id : Nat} : Race s ids won → ¬ Unopposed s won id → Race s (ids ++ [id]) won

/-- The transaction has something to write. -/
def hasWrites (s : Sys) (id : Nat) : Bool := (s.txns id).any (fun txn => !txn.writeSet.entries.isEmpty)

/-- The status code of a call. -/
def Response.code : Response → Option Code
  | .reply r => some r.status.code
  | _ => none

/-- What the commits of `done`, of which `won` got through, make of the state `s₀`. -/
structure Raced (s₀ : Sys) (done won : List Nat) (s : Sys) : Prop where
  subset : ∀ id ∈ won, id ∈ done
  txns : ∀ id ∉ done, s.txns id = s₀.txns id
  nextVersion : s.store.nextVersion = s₀.store.nextVersion + won.countP (hasWrites s₀)
  untouched : ∀ key, ¬ WrittenBy s₀ won key → s.store.history key = s₀.store.history key
  written : ∀ id ∈ won, ∀ txn, s₀.txns id = some txn → ∀ key out, txn.writeSet.lookup key = some out →
    ∃ e ∈ (s.store.history key).getLast?, e.value = out ∧ s₀.store.nextVersion ≤ e.version

namespace Raced
variable {s₀ s : Sys} {tr : List Event} {done won : List Nat} {id : Nat} {txn : Transaction}

theorem start (s : Sys) : Raced s [] [] s where
  subset _ h := h
  txns _ _ := rfl
  nextVersion := rfl
  untouched _ _ := rfl
  written _ h := by simp at h

/-- Validation finds what it would have found at once, and the keys of the winners. -/
theorem writtenSince_iff (hr : Raced s₀ done won s) {snapshot : Nat} (hs : snapshot < s₀.store.nextVersion)
    (key : String) : s.store.writtenSince snapshot key = true ↔
      s₀.store.writtenSince snapshot key = true ∨ WrittenBy s₀ won key := by
  by_cases hw : WrittenBy s₀ won key
  · obtain ⟨w, hwon, txn, ho, hk⟩ := hw
    obtain ⟨out, hl⟩ := Option.isSome_iff_exists.mp (AList.lookup_isSome.mpr hk)
    obtain ⟨e, he, _, hv⟩ := hr.written w hwon txn ho key out hl
    refine ⟨fun _ => .inr ⟨w, hwon, txn, ho, hk⟩, fun _ => ?_⟩
    exact (VersionStore.writtenSince_iff ..).mpr ⟨e, he, hs.trans_le hv⟩
  · rw [writtenSince_congr (hr.untouched key hw)]
    exact ⟨.inl, fun h => h.resolve_right hw⟩

/-- So a commit passes validation if and only if it is unopposed. -/
private theorem passes_iff (hr : Raced s₀ done won s) (ho : s₀.txns id = some txn)
    (hs : txn.snapshotVersion < s₀.store.nextVersion) :
    (∀ op ∈ txn.ops, s.store.writtenSince txn.snapshotVersion op.key = false) ↔ Unopposed s₀ won id := by
  have hkey (key : String) : s.store.writtenSince txn.snapshotVersion key = false ↔
      s₀.store.writtenSince txn.snapshotVersion key = false ∧ ¬ WrittenBy s₀ won key := by
    rw [← Bool.not_eq_true, hr.writtenSince_iff hs, not_or, Bool.not_eq_true]
  constructor
  · intro hv txn' ho' key hk
    obtain rfl : txn = txn' := Option.some.inj (ho.symm.trans ho')
    obtain ⟨op, hop, rfl⟩ := txn.mem_writeSet.mp hk
    exact (hkey _).mp (hv op hop)
  · intro hu op hop
    exact (hkey _).mpr (hu txn ho op.key (txn.mem_writeSet.mpr ⟨op, hop, rfl⟩))

private theorem writtenBy_concat {key : String} (ho : s₀.txns id = some txn) :
    WrittenBy s₀ (won ++ [id]) key ↔ WrittenBy s₀ won key ∨ key ∈ txn.writeSet := by
  constructor
  · rintro ⟨w, hw, txn', ho', hk⟩
    rcases List.mem_append.mp hw with hw | hw
    · exact .inl ⟨w, hw, txn', ho', hk⟩
    · obtain rfl := List.mem_singleton.mp hw
      obtain rfl : txn = txn' := Option.some.inj (ho.symm.trans ho')
      exact .inr hk
  · rintro (⟨w, hw, rest⟩ | hk)
    · exact ⟨w, by simp [hw], rest⟩
    · exact ⟨id, by simp, txn, ho, hk⟩

/-- A winner's write set is appended, and no earlier winner has a key in common with it. -/
private theorem win (hr : Raced s₀ done won s) (ho : s₀.txns id = some txn) (hu : Unopposed s₀ won id) {s' : Sys}
    (htxns : ∀ id' ≠ id, s'.txns id' = s.txns id') (hstore : s'.store = s.store.append txn.ops)
    (hw : hasWrites s₀ id = true) : Raced s₀ (done ++ [id]) (won ++ [id]) s' where
  subset id' hid' := by
    rcases List.mem_append.mp hid' with hm | hm
    · exact List.mem_append_left _ (hr.subset id' hm)
    · exact List.mem_append_right _ hm
  txns id' hid' := by
    rw [htxns id' (fun he => hid' (by simp [he])), hr.txns id' (fun hm => hid' (by simp [hm]))]
  nextVersion := by
    rw [hstore, nextVersion_append, hr.nextVersion, List.countP_append, List.countP_singleton, if_pos hw]
    rfl
  untouched key hn := by
    rw [writtenBy_concat ho, not_or] at hn
    rw [hstore, history_append_ops hn.2, hr.untouched key hn.1]
  written w hw txn' ho' key out hl := by
    rw [hstore]
    rcases List.mem_append.mp hw with hw | hw
    · have hout : key ∉ txn.writeSet := fun hk =>
        (hu txn ho key hk).2 ⟨w, hw, txn', ho', AList.lookup_isSome.mp (by simp [hl])⟩
      rw [history_append_ops hout]
      exact hr.written w hw txn' ho' key out hl
    · obtain rfl := List.mem_singleton.mp hw
      obtain rfl : txn = txn' := Option.some.inj (ho.symm.trans ho')
      refine ⟨⟨s.store.nextVersion, out⟩, ?_, rfl, hr.nextVersion ▸ Nat.le_add_right _ _⟩
      rw [history_append, txn.entriesFor_ops, hl]
      simp

/-- A commit that changes nothing, of a loser or of a transaction that writes nothing. -/
private theorem pass (hr : Raced s₀ done won s) {s' : Sys} (htxns : ∀ id' ≠ id, s'.txns id' = s.txns id')
    (hstore : s'.store = s.store) : Raced s₀ (done ++ [id]) won s' where
  subset id' hid' := List.mem_append_left _ (hr.subset id' hid')
  txns id' hid' := by
    rw [htxns id' (fun he => hid' (by simp [he])), hr.txns id' (fun hm => hid' (by simp [hm]))]
  nextVersion := hstore ▸ hr.nextVersion
  untouched := hstore ▸ hr.untouched
  written := hstore ▸ hr.written

/-- A transaction that writes nothing wins without a trace. -/
private theorem add_reader (hr : Raced s₀ done won s) (hid : id ∈ done) (ho : s₀.txns id = some txn)
    (he : txn.writeSet.entries = []) : Raced s₀ done (won ++ [id]) s where
  subset := List.forall_mem_append.mpr ⟨hr.subset, List.forall_mem_singleton.mpr hid⟩
  txns := hr.txns
  nextVersion := by
    have hn : hasWrites s₀ id = false := by simp [hasWrites, ho, he]
    rw [hr.nextVersion, List.countP_append, List.countP_singleton, hn]
    rfl
  untouched key hn := by
    rw [writtenBy_concat ho, not_or] at hn
    exact hr.untouched key hn.1
  written w hw txn' ho' key out hl := by
    rcases List.mem_append.mp hw with hw | hw
    · exact hr.written w hw txn' ho' key out hl
    · obtain rfl := List.mem_singleton.mp hw
      obtain rfl : txn = txn' := Option.some.inj (ho.symm.trans ho')
      have hop : ⟨key, out⟩ ∈ txn.ops := txn.mem_ops.mpr hl
      simp [txn.ops_eq_nil.mpr he] at hop

theorem commit (h₀ : machine.Execution tr s₀) (hr : Raced s₀ done won s) (hid : id ∉ done)
    (ho : s₀.txns id = some txn) (ha : txn.state = .active) (want : Bool) :
    ∃ s' r, machine.step s (.commit id want) = some (s', r) ∧
      (Unopposed s₀ won id ∧ r.code = some .ok ∧ Raced s₀ (done ++ [id]) (won ++ [id]) s' ∨
        ¬ Unopposed s₀ won id ∧ r.code = some .conflict ∧ Raced s₀ (done ++ [id]) won s') := by
  have hnow : s.txns id = some txn := (hr.txns id hid).trans ho
  have hbuf : txn.Buffered := buffered_of_execution h₀ ho
  have hsnap : txn.snapshotVersion < s₀.store.nextVersion := by
    have hle := snapshot_le_of_execution h₀ ho ha
    have hnext := (represents_of_execution h₀).next
    rw [currentVersion] at hle
    omega
  have hothers : ∀ id' ≠ id, (s.commit id txn want).1.txns id' = s.txns id' := by
    intro id' hne
    simp [Sys.commit, Sys.setTxn, hne]
  refine ⟨(s.commit id txn want).1, (s.commit id txn want).2, by simp [machine, Sys.step, hnow], ?_⟩
  rcases Transaction.commit_cases s.store hbuf ha want with ⟨he, heq⟩ | ⟨he, hv, heq⟩ | ⟨_, hw, h₁, _, hout⟩
  · have hu : Unopposed s₀ won id := (hr.passes_iff ho hsnap).mp (by simp [txn.ops_eq_nil.mpr he])
    have hsame : (s.commit id txn want).1.store = s.store := by simp [Sys.commit, heq]
    exact .inl ⟨hu, by simp [Sys.commit, Response.code, heq],
      (hr.pass hothers hsame).add_reader (by simp) ho he⟩
  · have hu : Unopposed s₀ won id := (hr.passes_iff ho hsnap).mp hv
    refine .inl ⟨hu, by simp [Sys.commit, Response.code, heq, VersionStore.written], hr.win ho hu hothers ?_ ?_⟩
    · simp [Sys.commit, heq]
    · simp [hasWrites, ho, he]
  · have hn : ¬ Unopposed s₀ won id := by
      intro hu
      obtain ⟨op, hop, hsince⟩ := hw
      rw [(hr.passes_iff ho hsnap).mpr hu op hop] at hsince
      cases hsince
    refine .inr ⟨hn, ?_, hr.pass hothers ?_⟩
    · exact congrArg some (congrArg Observed.code hout)
    · simp [Sys.commit, h₁]

end Raced

private theorem race_run {tr : List Event} {s : Sys} (h : machine.Execution tr s) {ids : List Nat}
    (hn : ids.Nodup) (hactive : ∀ id ∈ ids, ∃ txn, s.txns id = some txn ∧ txn.state = .active) (want : Nat → Bool) :
    ∃ won tr' s', Race s ids won ∧ machine.Path s tr' s' ∧
      tr'.map Transition.label = ids.map (fun id => .commit id (want id)) ∧
      tr'.map (fun t => t.output.code) = ids.map (fun id => some (if id ∈ won then Code.ok else Code.conflict)) ∧
      Raced s ids won s' := by
  induction ids using List.reverseRecOn with
  | nil => exact ⟨[], [], s, .nil, .nil, rfl, rfl, .start s⟩
  | append_singleton ids id ih =>
    obtain ⟨hn', _, hdis⟩ := List.nodup_append.mp hn
    have hid : id ∉ ids := fun hm => hdis id hm id (by simp) rfl
    obtain ⟨won, tr', s', hrace, hpath, hlabels, hcodes, hr⟩ := ih hn' (fun i hi => hactive i (by simp [hi]))
    obtain ⟨txn, ho, ha⟩ := hactive id (by simp)
    obtain ⟨s'', r, hstep, hcase⟩ := hr.commit h hid ho ha (want id)
    have htaken : machine.Taken ⟨s', .commit id (want id), r, s''⟩ := hstep
    have hout : id ∉ won := fun hm => hid (hr.subset id hm)
    rcases hcase with ⟨hu, hcode, hr'⟩ | ⟨hu, hcode, hr'⟩
    · refine ⟨won ++ [id], _, s'', hrace.win hu, hpath.snoc htaken, by simp [hlabels], ?_, hr'⟩
      have hsame : ids.map (fun i => some (if i ∈ won ++ [id] then Code.ok else Code.conflict)) =
          ids.map (fun i => some (if i ∈ won then Code.ok else Code.conflict)) :=
        List.map_congr_left (fun i hi => by
          have hne : i ≠ id := fun he => hid (he ▸ hi)
          simp [hne])
      rw [List.map_append, List.map_append, hsame, hcodes]
      simp [hcode]
    · refine ⟨won, _, s'', hrace.lose hu, hpath.snoc htaken, by simp [hlabels], ?_, hr'⟩
      rw [List.map_append, List.map_append, hcodes]
      simp [hcode, hout]

/-- In every reachable state and for every sequence of distinct active transactions, whatever
they write: committing them one after the other is a race that first committers win. Winners
return OK and losers `Conflict`, every key of a winner ends with that winner's outcome, every
other key keeps its history, and each winner with something to write has taken one version. -/
theorem first_committer_wins {tr : List Event} {s : Sys} (h : machine.Execution tr s) {ids : List Nat}
    (hn : ids.Nodup) (hactive : ∀ id ∈ ids, ∃ txn, s.txns id = some txn ∧ txn.state = .active) (want : Nat → Bool) :
    ∃ won tr' s', Race s ids won ∧ machine.run s (ids.map (fun id => .commit id (want id))) = some (tr', s') ∧
      tr'.map (fun t => t.output.code) = ids.map (fun id => some (if id ∈ won then Code.ok else Code.conflict)) ∧
      (∀ id ∈ won, ∀ txn, s.txns id = some txn → ∀ key out, txn.writeSet.lookup key = some out →
        s'.store.latestValue key = out) ∧
      (∀ key, ¬ WrittenBy s won key → s'.store.history key = s.store.history key) ∧
      s'.store.currentVersion = s.store.currentVersion + won.countP (hasWrites s) := by
  obtain ⟨won, tr', s', hrace, hpath, hlabels, hcodes, hr⟩ := race_run h hn hactive want
  refine ⟨won, tr', s', hrace, ?_, hcodes, fun id hid txn ho key out hl => ?_, hr.untouched, ?_⟩
  · rw [← hlabels]
    exact hpath.run_eq
  · obtain ⟨e, he, hv, _⟩ := hr.written id hid txn ho key out hl
    rw [latestValue, Option.mem_def.mp he, ← hv]
    rfl
  · have hnext := (represents_of_execution h).next
    rw [currentVersion, currentVersion, hr.nextVersion, hnext]
    omega

/-- Three writers in a chain: the first and the last each share a key with the one between them. -/
private def chainedWriters : List Call :=
  [.begin, .begin, .begin, .data 1 (.put "a" "1"), .data 2 (.put "a" "2"), .data 2 (.put "b" "2"),
    .data 3 (.put "b" "3")]

theorem first_committer_wins_chain :
    ∃ tr s won tr' s', machine.Execution tr s ∧ Race s [1, 2, 3] won ∧
      machine.run s [.commit 1 false, .commit 2 false, .commit 3 false] = some (tr', s') ∧
      tr'.map (fun t => t.output.code) = [some .ok, some .conflict, some .ok] ∧ won.countP (hasWrites s) = 2 := by
  have h : machine.Execution (machine.trace chainedWriters) (machine.final chainedWriters) :=
    Machine.scheduled chainedWriters (by decide)
  have hactive : ∀ id ∈ [1, 2, 3], ∃ txn, (machine.final chainedWriters).txns id = some txn ∧ txn.state = .active := by
    intro id hid
    have hall : ∀ id ∈ [1, 2, 3], ((machine.final chainedWriters).txns id).map Transaction.state = some .active := by
      decide
    simpa [Option.map_eq_some_iff] using hall id hid
  obtain ⟨won, tr', s', hrace, hrun, _, _, _, hversion⟩ :=
    first_committer_wins h (by decide) hactive (fun _ => false)
  have hcodes : (machine.run (machine.final chainedWriters) [.commit 1 false, .commit 2 false, .commit 3 false]).map
      (fun out => (out.1.map (fun t => t.output.code), out.2.store.currentVersion)) =
      some ([some .ok, some .conflict, some .ok], 2) := by decide
  have hrun' : machine.run (machine.final chainedWriters) [.commit 1 false, .commit 2 false, .commit 3 false] =
      some (tr', s') := hrun
  rw [hrun'] at hcodes
  obtain ⟨hcodes, htwo⟩ := Prod.mk.inj (Option.some.inj hcodes)
  have hzero : (machine.final chainedWriters).store.currentVersion = 0 := by decide
  rw [htwo, hzero] at hversion
  exact ⟨_, _, won, tr', s', h, hrace, hrun', hcodes, by omega⟩

end MvccLite.Calls
