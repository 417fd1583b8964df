import MvccLite.Threads.System

/-! Everything a section can do, said once: its guard, its reply and its effect.
Invariants are proved by cases on this relation and never unfold the step function. -/
namespace MvccLite.Threads
open Library TransactionManager

namespace State
variable (s : State) (id id' p p' : Nat) (ph : Option Phase) (pass : Pass)

@[simp] theorem setClient_store : (s.setClient id ph).store = s.store := rfl
@[simp] theorem setClient_manager : (s.setClient id ph).manager = s.manager := rfl
@[simp] theorem setClient_self : (s.setClient id ph).clients id = ph := by simp [setClient]
@[simp] theorem setPass_store : (s.setPass p pass).store = s.store := rfl
@[simp] theorem setPass_manager : (s.setPass p pass).manager = s.manager := rfl
@[simp] theorem setPass_clients : (s.setPass p pass).clients = s.clients := rfl
@[simp] theorem setPass_self : (s.setPass p pass).passes p = pass := by simp [setPass]

theorem setPass_setPass (pass' : Pass) : (s.setPass p pass').setPass p pass = s.setPass p pass := by
  simp [setPass]

theorem setClient_ne {id id' : Nat} (h : id' ≠ id) : (s.setClient id ph).clients id' = s.clients id' := by
  simp [setClient, h]

end State

inductive Fires (s : State) : Action → Option Reply → State → Prop
  | fetchTxnId : Fires s .fetchTxnId none
      ({ s with manager := s.manager.fetchTxnId }.setClient s.manager.nextTxnId (some .allocated))
  | placeholder {id} (h : s.clients id = some .allocated) : Fires s (.placeholder id) none
      ({ s with manager := s.manager.register id 0 }.setClient id (some .placed))
  | readVersion {id} (h : s.clients id = some .placed) : Fires s (.readVersion id) none
      (s.setClient id (some (.versionRead s.store.currentVersion)))
  | refine {id snapshot} (h : s.clients id = some (.versionRead snapshot)) : Fires s (.refine id) none
      ({ s with manager := s.manager.register id snapshot }.setClient id
        (some (.returned { txnId := id, snapshotVersion := snapshot })))
  | data {id txn} (c : DataCall) (h : s.clients id = some (.returned txn)) :
      Fires s (.data id c) (some (txn.exec s.store c).2)
        (s.setClient id (some (.returned (txn.exec s.store c).1)))
  | commit {id txn} (want : Bool) (h : s.clients id = some (.returned txn)) (ha : txn.state = .active) :
      Fires s (.commit id want) (some (txn.commit s.store want).2.2)
        ({ s with store := (txn.commit s.store want).1 }.setClient id
          (some (.ending (txn.commit s.store want).2.1)))
  | commitRefused {id txn} (want : Bool) (h : s.clients id = some (.returned txn))
      (ha : txn.state ≠ .active) : Fires s (.commit id want) (some Transaction.notActive) s
  | abort {id txn} (h : s.clients id = some (.returned txn)) (ha : txn.state = .active) :
      Fires s (.abort id) (some txn.abort.2) (s.setClient id (some (.ending txn.abort.1)))
  | abortRefused {id txn} (h : s.clients id = some (.returned txn)) (ha : txn.state ≠ .active) :
      Fires s (.abort id) (some Transaction.notActive) s
  | destroy {id txn} (h : s.clients id = some (.returned txn)) (ha : txn.state = .active) :
      Fires s (.destroy id) none (s.setClient id (some (.destroying txn)))
  | destroyFinished {id txn} (h : s.clients id = some (.returned txn)) (ha : txn.state ≠ .active) :
      Fires s (.destroy id) none (s.setClient id none)
  | unregister {id txn} (h : s.clients id = some (.ending txn)) : Fires s (.unregister id) none
      ({ s with manager := s.manager.unregister txn.txnId }.setClient id (some (.returned txn)))
  | unregisterDestroyed {id txn} (h : s.clients id = some (.destroying txn)) :
      Fires s (.unregister id) none
        ({ s with manager := s.manager.unregister txn.txnId }.setClient id none)
  | write (c : WriteCall) : Fires s (.write c) (some (s.store.write c).2)
      { s with store := (s.store.write c).1 }
  | runOnce {p} (h : s.passes p = .idle) : Fires s (.runOnce p) none (s.setPass p (.scanning 0 none))
  | visitShard {p next seen} (h : s.passes p = .scanning next seen) (hn : next < kNumShards) :
      Fires s (.visitShard p) none
        (s.setPass p (.scanning (next + 1) (scanShard seen (s.manager.shards ⟨next, hn⟩))))
  | finishScan {p seen} (h : s.passes p = .scanning kNumShards seen) :
      Fires s (.finishScan p) none (s.setPass p (.bounded (boundary s.store seen)))
  | collectGarbage {p b} (h : s.passes p = .bounded b) : Fires s (.collectGarbage p) none
      ({ s with store := (s.store.collectGarbage b).1 }.setPass p
        (.collected (s.store.collectGarbage b).2))
  | addStats {p stats} (h : s.passes p = .collected stats) : Fires s (.addStats p) none
      ({ s with cumulativeStats := s.cumulativeStats.add stats }.setPass p .idle)

theorem step_fires {s s' : State} {a : Action} {r : Option Reply} (h : s.step a = some (s', r)) :
    Fires s a r s' := by
  cases a with
  | fetchTxnId =>
    obtain ⟨rfl, rfl⟩ := Prod.mk.inj (Option.some.inj h)
    exact .fetchTxnId
  | placeholder id =>
    match hc : s.clients id with
    | some .allocated =>
      simp only [State.step, State.stepClient, hc, Option.some.injEq, Prod.mk.injEq] at h
      obtain ⟨rfl, rfl⟩ := h
      exact .placeholder hc
    | none | some .placed | some (.versionRead _) | some (.returned _) | some (.ending _)
    | some (.destroying _) => simp [State.step, State.stepClient, hc] at h
  | readVersion id =>
    match hc : s.clients id with
    | some .placed =>
      simp only [State.step, State.stepClient, hc, Option.some.injEq, Prod.mk.injEq] at h
      obtain ⟨rfl, rfl⟩ := h
      exact .readVersion hc
    | none | some .allocated | some (.versionRead _) | some (.returned _) | some (.ending _)
    | some (.destroying _) => simp [State.step, State.stepClient, hc] at h
  | refine id =>
    match hc : s.clients id with
    | some (.versionRead _) =>
      simp only [State.step, State.stepClient, hc, Option.some.injEq, Prod.mk.injEq] at h
      obtain ⟨rfl, rfl⟩ := h
      exact .refine hc
    | none | some .allocated | some .placed | some (.returned _) | some (.ending _)
    | some (.destroying _) => simp [State.step, State.stepClient, hc] at h
  | data id c =>
    match hc : s.clients id with
    | some (.returned _) =>
      simp only [State.step, State.stepClient, hc, Option.some.injEq, Prod.mk.injEq] at h
      obtain ⟨rfl, rfl⟩ := h
      exact .data c hc
    | none | some .allocated | some .placed | some (.versionRead _) | some (.ending _)
    | some (.destroying _) => simp [State.step, State.stepClient, hc] at h
  | commit id want =>
    match hc : s.clients id with
    | some (.returned txn) =>
      simp only [State.step, State.stepClient, hc] at h
      split at h
      · rename_i ha
        obtain ⟨rfl, rfl⟩ := Prod.mk.inj (Option.some.inj h)
        exact .commit want hc ha
      · rename_i ha
        obtain ⟨rfl, rfl⟩ := Prod.mk.inj (Option.some.inj h)
        rw [Transaction.commit_inactive ha]
        exact .commitRefused want hc ha
    | none | some .allocated | some .placed | some (.versionRead _) | some (.ending _)
    | some (.destroying _) => simp [State.step, State.stepClient, hc] at h
  | abort id =>
    match hc : s.clients id with
    | some (.returned txn) =>
      simp only [State.step, State.stepClient, hc] at h
      split at h
      · rename_i ha
        obtain ⟨rfl, rfl⟩ := Prod.mk.inj (Option.some.inj h)
        exact .abort hc ha
      · rename_i ha
        obtain ⟨rfl, rfl⟩ := Prod.mk.inj (Option.some.inj h)
        rw [Transaction.abort_inactive ha]
        exact .abortRefused hc ha
    | none | some .allocated | some .placed | some (.versionRead _) | some (.ending _)
    | some (.destroying _) => simp [State.step, State.stepClient, hc] at h
  | destroy id =>
    match hc : s.clients id with
    | some (.returned txn) =>
      simp only [State.step, State.stepClient, hc] at h
      split at h
      · rename_i ha
        obtain ⟨rfl, rfl⟩ := Prod.mk.inj (Option.some.inj h)
        exact .destroy hc ha
      · rename_i ha
        obtain ⟨rfl, rfl⟩ := Prod.mk.inj (Option.some.inj h)
        exact .destroyFinished hc ha
    | none | some .allocated | some .placed | some (.versionRead _) | some (.ending _)
    | some (.destroying _) => simp [State.step, State.stepClient, hc] at h
  | unregister id =>
    match hc : s.clients id with
    | some (.ending _) =>
      simp only [State.step, State.stepClient, hc, Option.some.injEq, Prod.mk.injEq] at h
      obtain ⟨rfl, rfl⟩ := h
      exact .unregister hc
    | some (.destroying _) =>
      simp only [State.step, State.stepClient, hc, Option.some.injEq, Prod.mk.injEq] at h
      obtain ⟨rfl, rfl⟩ := h
      exact .unregisterDestroyed hc
    | none | some .allocated | some .placed | some (.versionRead _) | some (.returned _) =>
      simp [State.step, State.stepClient, hc] at h
  | write c =>
    obtain ⟨rfl, rfl⟩ := Prod.mk.inj (Option.some.inj h)
    exact .write c
  | runOnce p =>
    match hc : s.passes p with
    | .idle =>
      simp only [State.step, State.stepPass, hc, Option.some.injEq, Prod.mk.injEq] at h
      obtain ⟨rfl, rfl⟩ := h
      exact .runOnce hc
    | .scanning _ _ | .bounded _ | .collected _ => simp [State.step, State.stepPass, hc] at h
  | visitShard p =>
    match hc : s.passes p with
    | .scanning next seen =>
      simp only [State.step, State.stepPass, hc] at h
      split at h
      · rename_i hn
        obtain ⟨rfl, rfl⟩ := Prod.mk.inj (Option.some.inj h)
        exact .visitShard hc hn
      · cases h
    | .idle | .bounded _ | .collected _ => simp [State.step, State.stepPass, hc] at h
  | finishScan p =>
    match hc : s.passes p with
    | .scanning next seen =>
      simp only [State.step, State.stepPass, hc] at h
      split at h
      · rename_i hn
        subst hn
        obtain ⟨rfl, rfl⟩ := Prod.mk.inj (Option.some.inj h)
        exact .finishScan hc
      · cases h
    | .idle | .bounded _ | .collected _ => simp [State.step, State.stepPass, hc] at h
  | collectGarbage p =>
    match hc : s.passes p with
    | .bounded b =>
      simp only [State.step, State.stepPass, hc, Option.some.injEq, Prod.mk.injEq] at h
      obtain ⟨rfl, rfl⟩ := h
      exact .collectGarbage hc
    | .idle | .scanning _ _ | .collected _ => simp [State.step, State.stepPass, hc] at h
  | addStats p =>
    match hc : s.passes p with
    | .collected stats =>
      simp only [State.step, State.stepPass, hc, Option.some.injEq, Prod.mk.injEq] at h
      obtain ⟨rfl, rfl⟩ := h
      exact .addStats hc
    | .idle | .scanning _ _ | .bounded _ => simp [State.step, State.stepPass, hc] at h

/-- Every section that may fire is a step. -/
theorem fires_taken {s s' : State} {a : Action} {r : Option Reply} (h : Fires s a r s') :
    machine.Taken ⟨s, a, r, s'⟩ := by
  change s.step a = some (s', r)
  cases h with
  | fetchTxnId | write => rfl
  | placeholder h | readVersion h | refine h | data c h | unregister h | unregisterDestroyed h =>
    simp only [State.step, State.stepClient, h]
  | commit want h ha | abort h ha | destroy h ha | destroyFinished h ha =>
    simp only [State.step, State.stepClient, h, ha, if_true, if_false]
  | @commitRefused id txn want h ha =>
    simp only [State.step, State.stepClient, h, ha, if_false, Transaction.commit_inactive ha]
  | @abortRefused id txn h ha =>
    simp only [State.step, State.stepClient, h, ha, if_false, Transaction.abort_inactive ha]
  | runOnce h | collectGarbage h | addStats h => simp only [State.step, State.stepPass, h]
  | visitShard h hn => simp only [State.step, State.stepPass, h, hn, dif_pos]
  | finishScan h => simp only [State.step, State.stepPass, h, if_true]

theorem taken_fires {t : Event} (h : machine.Taken t) : Fires t.source t.label t.output t.target :=
  step_fires h

/-- The transaction whose owning thread takes the section. -/
def Action.client : Action → Option Nat
  | .placeholder id | .readVersion id | .refine id | .data id _ | .commit id _ | .abort id
  | .destroy id | .unregister id => some id
  | .fetchTxnId | .write _ | .runOnce _ | .visitShard _ | .finishScan _ | .collectGarbage _
  | .addStats _ => none

/-- What a section of the owning thread does to its transaction. -/
inductive Moves (store : VersionStore) (id : Nat) : Action → Phase → Option Phase → Prop
  | placeholder : Moves store id (.placeholder id) .allocated (some .placed)
  | readVersion : Moves store id (.readVersion id) .placed (some (.versionRead store.currentVersion))
  | refine {snapshot} : Moves store id (.refine id) (.versionRead snapshot)
      (some (.returned { txnId := id, snapshotVersion := snapshot }))
  | data {txn} (c : DataCall) :
      Moves store id (.data id c) (.returned txn) (some (.returned (txn.exec store c).1))
  | commit {txn} (want : Bool) (ha : txn.state = .active) :
      Moves store id (.commit id want) (.returned txn) (some (.ending (txn.commit store want).2.1))
  | commitRefused {txn} (want : Bool) (ha : txn.state ≠ .active) :
      Moves store id (.commit id want) (.returned txn) (some (.returned txn))
  | abort {txn} (ha : txn.state = .active) :
      Moves store id (.abort id) (.returned txn) (some (.ending txn.abort.1))
  | abortRefused {txn} (ha : txn.state ≠ .active) :
      Moves store id (.abort id) (.returned txn) (some (.returned txn))
  | destroy {txn} (ha : txn.state = .active) :
      Moves store id (.destroy id) (.returned txn) (some (.destroying txn))
  | destroyFinished {txn} (ha : txn.state ≠ .active) : Moves store id (.destroy id) (.returned txn) none
  | unregister {txn} : Moves store id (.unregister id) (.ending txn) (some (.returned txn))
  | unregisterDestroyed {txn} : Moves store id (.unregister id) (.destroying txn) none

theorem Fires.moves {s s' : State} {a : Action} {r : Option Reply} (h : Fires s a r s') {id : Nat}
    (hown : a.client = some id) :
    ∃ ph ph', s.clients id = some ph ∧ s'.clients id = ph' ∧ Moves s.store id a ph ph' := by
  cases h with
  | fetchTxnId | write | runOnce | visitShard | finishScan | collectGarbage | addStats =>
    simp [Action.client] at hown
  | placeholder hc =>
    obtain rfl := Option.some.inj hown
    exact ⟨_, _, hc, State.setClient_self _ _ _, .placeholder⟩
  | readVersion hc =>
    obtain rfl := Option.some.inj hown
    exact ⟨_, _, hc, State.setClient_self _ _ _, .readVersion⟩
  | refine hc =>
    obtain rfl := Option.some.inj hown
    exact ⟨_, _, hc, State.setClient_self _ _ _, .refine⟩
  | data c hc =>
    obtain rfl := Option.some.inj hown
    exact ⟨_, _, hc, State.setClient_self _ _ _, .data c⟩
  | commit want hc ha =>
    obtain rfl := Option.some.inj hown
    exact ⟨_, _, hc, State.setClient_self _ _ _, .commit want ha⟩
  | commitRefused want hc ha =>
    obtain rfl := Option.some.inj hown
    exact ⟨_, _, hc, hc, .commitRefused want ha⟩
  | abort hc ha =>
    obtain rfl := Option.some.inj hown
    exact ⟨_, _, hc, State.setClient_self _ _ _, .abort ha⟩
  | abortRefused hc ha =>
    obtain rfl := Option.some.inj hown
    exact ⟨_, _, hc, hc, .abortRefused ha⟩
  | destroy hc ha =>
    obtain rfl := Option.some.inj hown
    exact ⟨_, _, hc, State.setClient_self _ _ _, .destroy ha⟩
  | destroyFinished hc ha =>
    obtain rfl := Option.some.inj hown
    exact ⟨_, _, hc, State.setClient_self _ _ _, .destroyFinished ha⟩
  | unregister hc =>
    obtain rfl := Option.some.inj hown
    exact ⟨_, _, hc, State.setClient_self _ _ _, .unregister⟩
  | unregisterDestroyed hc =>
    obtain rfl := Option.some.inj hown
    exact ⟨_, _, hc, State.setClient_self _ _ _, .unregisterDestroyed⟩

/-- A section of somebody else leaves a transaction where it was, unless it
draws the transaction's identifier. -/
theorem Fires.client_frame {s s' : State} {a : Action} {r : Option Reply} (h : Fires s a r s') {id : Nat}
    (hne : a.client ≠ some id) :
    s'.clients id = s.clients id ∨ id = s.manager.nextTxnId ∧ s'.clients id = some .allocated := by
  have other {id' : Nat} (ph : Option Phase) (t : State) (hid : id' ≠ id) :
      (t.setClient id' ph).clients id = t.clients id := t.setClient_ne ph (Ne.symm hid)
  cases h with
  | fetchTxnId =>
    by_cases hid : id = s.manager.nextTxnId
    · exact .inr ⟨hid, by simp [hid]⟩
    · exact .inl (other _ _ (Ne.symm hid))
  | placeholder | readVersion | refine | data | commit | abort | destroy | destroyFinished
  | unregister | unregisterDestroyed =>
    exact .inl (other _ _ (fun he => hne (by simp [Action.client, he])))
  | commitRefused | abortRefused | write | runOnce | visitShard | finishScan | collectGarbage
  | addStats => exact .inl rfl

end MvccLite.Threads
