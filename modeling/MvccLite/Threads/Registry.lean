import MvccLite.Threads.Steps
import MvccLite.Txn.Outcomes
import MvccLite.Txn.Registry

/-! The sharded registry mirrors the live transactions, in every interleaving. -/
namespace MvccLite.Threads
open Library TransactionManager

/-- The transaction object, once `Begin` has built it. -/
def Phase.object : Phase → Option Transaction
  | .allocated | .placed | .versionRead _ => none
  | .returned txn | .ending txn | .destroying txn => some txn

/-- What the registry holds for a transaction in this phase. -/
def Phase.entry : Phase → Option Nat
  | .allocated => none
  | .placed | .versionRead _ => some 0
  | .returned txn => if txn.state = .active then some txn.snapshotVersion else none
  | .ending txn | .destroying txn => some txn.snapshotVersion

def State.object (s : State) (id : Nat) : Option Transaction := (s.clients id).bind Phase.object

def State.entry (s : State) (id : Nat) : Option Nat := (s.clients id).bind Phase.entry

/-- Identifiers are drawn before use, objects know their own, and each shard
holds exactly the entries that the phases of its transactions call for. -/
structure Registered (s : State) : Prop where
  drawn : ∀ id, s.clients id ≠ none → id < s.manager.nextTxnId
  txnId : ∀ id txn, s.object id = some txn → txn.txnId = id
  settled : ∀ id txn, s.clients id = some (.ending txn) → txn.state ≠ .active
  registry : ∀ id sh, (s.manager.shards sh).lookup id = if sh = shardFor id then s.entry id else none

namespace Registered

theorem initial : Registered {} where
  drawn _ h := absurd rfl h
  txnId _ _ h := by cases h
  settled _ _ h := by cases h
  registry _ _ := by simp [State.entry]

private theorem update {s : State} (hi : Registered s) {store : VersionStore} {m : TransactionManager}
    {id : Nat} {ph : Option Phase} (hid : ph ≠ none → id < m.nextTxnId)
    (hnext : s.manager.nextTxnId ≤ m.nextTxnId)
    (hobj : ∀ txn, ph.bind Phase.object = some txn → txn.txnId = id)
    (hend : ∀ txn, ph = some (.ending txn) → txn.state ≠ .active)
    (hself : ∀ sh, (m.shards sh).lookup id = if sh = shardFor id then ph.bind Phase.entry else none)
    (hother : ∀ sh id', id' ≠ id → (m.shards sh).lookup id' = (s.manager.shards sh).lookup id') :
    Registered ({ s with store := store, manager := m }.setClient id ph) where
  drawn id' h := by
    by_cases he : id' = id
    · subst he
      exact hid (by simpa using h)
    · rw [State.setClient_ne _ _ he] at h
      exact (hi.drawn id' h).trans_le hnext
  txnId id' txn h := by
    by_cases he : id' = id
    · subst he
      exact hobj txn (by simpa [State.object] using h)
    · rw [State.object, State.setClient_ne _ _ he] at h
      exact hi.txnId id' txn h
  settled id' txn h := by
    by_cases he : id' = id
    · subst he
      exact hend txn (by simpa using h)
    · rw [State.setClient_ne _ _ he] at h
      exact hi.settled id' txn h
  registry id' sh := by
    by_cases he : id' = id
    · subst he
      simpa [State.entry] using hself sh
    · rw [State.entry, State.setClient_ne _ _ he]
      exact (hother sh id' he).trans (hi.registry id' sh)

/-- A section that leaves the registry alone and the entry as it should be. -/
private theorem keep {s : State} (hi : Registered s) {store : VersionStore} {id : Nat} {ph : Phase}
    {ph' : Option Phase} (h : s.clients id = some ph)
    (hobj : ∀ txn, ph'.bind Phase.object = some txn → txn.txnId = id)
    (hend : ∀ txn, ph' = some (.ending txn) → txn.state ≠ .active)
    (hent : ph'.bind Phase.entry = ph.entry) : Registered ({ s with store := store }.setClient id ph') := by
  refine update hi (fun _ => hi.drawn id (by simp [h])) le_rfl hobj hend ?_ (fun _ _ _ => rfl)
  intro sh
  rw [hi.registry id sh, State.entry, h, hent]
  rfl

private theorem register {s : State} (hi : Registered s) {id v : Nat} {ph ph' : Phase}
    (h : s.clients id = some ph) (hobj : ∀ txn, ph'.object = some txn → txn.txnId = id)
    (hend : ∀ txn, ph' ≠ .ending txn) (hent : ph'.entry = some v) :
    Registered ({ s with manager := s.manager.register id v }.setClient id (some ph')) := by
  refine update hi (fun _ => hi.drawn id (by simp [h])) le_rfl hobj (fun txn he => ?_) ?_ ?_
  · exact absurd (Option.some.inj he) (hend txn)
  · intro sh
    rw [lookup_register, hi.registry]
    by_cases hs : sh = shardFor id
    · simp [hs, hent]
    · simp [hs]
  · intro sh id' hne
    rw [lookup_register, if_neg (fun hh => hne hh.2)]

private theorem unregister {s : State} (hi : Registered s) {id : Nat} {txn : Transaction} {ph : Phase}
    {ph' : Option Phase} (h : s.clients id = some ph) (ht : ph.object = some txn)
    (hobj : ∀ txn', ph'.bind Phase.object = some txn' → txn' = txn)
    (hend : ∀ txn, ph' ≠ some (.ending txn)) (hent : ph'.bind Phase.entry = none) :
    Registered ({ s with manager := s.manager.unregister txn.txnId }.setClient id ph') := by
  have hid : txn.txnId = id := hi.txnId id txn (by simp [State.object, h, ht])
  rw [hid]
  refine update hi (fun _ => hi.drawn id (by simp [h])) le_rfl (fun txn' hh => hobj txn' hh ▸ hid)
    (fun txn' he => absurd he (hend txn')) ?_ ?_
  · intro sh
    rw [lookup_unregister, hi.registry]
    by_cases hs : sh = shardFor id
    · simp [hs, hent]
    · simp [hs]
  · intro sh id' hne
    rw [lookup_unregister, if_neg (fun hh => hne hh.2)]

theorem step {s s' : State} {a : Action} {r : Option Reply} (h : Fires s a r s') (hi : Registered s) :
    Registered s' := by
  have object {id : Nat} {txn : Transaction} {ph : Phase} (h : s.clients id = some ph)
      (ht : ph.object = some txn) : txn.txnId = id := hi.txnId id txn (by simp [State.object, h, ht])
  cases h with
  | fetchTxnId =>
    refine update hi (fun _ => Nat.lt_succ_self _) (Nat.le_succ _) (by simp [Phase.object]) (by simp) ?_
      (fun _ _ _ => rfl)
    intro sh
    have hn : s.clients s.manager.nextTxnId = none := by
      by_contra hc
      exact absurd (hi.drawn _ hc) (lt_irrefl _)
    simp [lookup_fetchTxnId, hi.registry, State.entry, hn, Phase.entry]
  | placeholder hc => exact register hi hc (by simp [Phase.object]) (by simp) rfl
  | readVersion hc => exact keep hi hc (by simp [Phase.object]) (by simp) rfl
  | refine hc => exact register hi hc (by simp [Phase.object]) (by simp) (by simp [Phase.entry])
  | @data id txn c hc =>
    obtain ⟨h₁, h₂, h₃⟩ := txn.exec_fixed s.store c
    refine keep hi hc ?_ (by simp) (by simp [Phase.entry, h₂, h₃])
    rintro txn' ht
    obtain rfl : (txn.exec s.store c).1 = txn' := by simpa [Phase.object] using ht
    exact h₁.trans (object hc rfl)
  | @commit id txn want hc ha =>
    obtain ⟨h₁, h₂⟩ := txn.commit_fixed s.store want
    refine keep hi hc ?_ ?_ (by simp [Phase.entry, h₂, ha])
    · rintro txn' ht
      obtain rfl : (txn.commit s.store want).2.1 = txn' := by simpa [Phase.object] using ht
      exact h₁.trans (object hc rfl)
    · rintro txn' ht
      obtain rfl : (txn.commit s.store want).2.1 = txn' := by simpa using ht
      exact txn.commit_state s.store want
  | commitRefused want hc ha => exact hi
  | @abort id txn hc ha =>
    obtain ⟨h₁, h₂⟩ := txn.abort_fixed
    refine keep hi hc ?_ ?_ (by simp [Phase.entry, h₂, ha])
    · rintro txn' ht
      obtain rfl : txn.abort.1 = txn' := by simpa [Phase.object] using ht
      exact h₁.trans (object hc rfl)
    · rintro txn' ht
      obtain rfl : txn.abort.1 = txn' := by simpa using ht
      exact txn.abort_state
  | abortRefused hc ha => exact hi
  | @destroy id txn hc ha =>
    refine keep hi hc ?_ (by simp) (by simp [Phase.entry, ha])
    rintro txn' ht
    obtain rfl : txn = txn' := by simpa [Phase.object] using ht
    exact object hc rfl
  | destroyFinished hc ha => exact keep hi hc (by simp) (by simp) (by simp [Phase.entry, ha])
  | @unregister id txn hc =>
    refine unregister hi hc rfl ?_ (by simp) (by simp [Phase.entry, hi.settled id txn hc])
    rintro txn' ht
    simpa [Phase.object, eq_comm] using ht
  | unregisterDestroyed hc => exact unregister hi hc rfl (by simp) (by simp) rfl
  | write c => exact ⟨hi.drawn, hi.txnId, hi.settled, hi.registry⟩
  | runOnce hc => exact ⟨hi.drawn, hi.txnId, hi.settled, hi.registry⟩
  | visitShard hc hn => exact ⟨hi.drawn, hi.txnId, hi.settled, hi.registry⟩
  | finishScan hc => exact ⟨hi.drawn, hi.txnId, hi.settled, hi.registry⟩
  | collectGarbage hc => exact ⟨hi.drawn, hi.txnId, hi.settled, hi.registry⟩
  | addStats hc => exact ⟨hi.drawn, hi.txnId, hi.settled, hi.registry⟩

end Registered

/-- The registry invariant of every run. -/
theorem registered_of_execution {tr : List Event} {s : State} (h : machine.Execution tr s) : Registered s :=
  h.invariant (I := fun _ s => Registered s) .initial
    (fun _ _ _ ht hi => hi.step (taken_fires ht))

end MvccLite.Threads
