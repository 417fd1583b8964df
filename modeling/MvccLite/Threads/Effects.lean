import MvccLite.Threads.Frames

/-! A transaction touches the store at most once: by a commit that succeeds with
something to write. -/
namespace MvccLite.Threads
open Library VersionStore

/-- A call on the transaction object. -/
def Action.IsCall (id : Nat) : Action → Prop
  | .data id' _ | .commit id' _ | .abort id' => id' = id
  | _ => False

/-- The section is a successful commit of the object with something to write. -/
def AppliesWrites (id : Nat) (txn : Transaction) (t : Event) : Prop :=
  t.source.clients id = some (.returned txn) ∧ txn.writeSet.entries ≠ [] ∧
    ∃ want r, t.label = .commit id want ∧ t.output = some r ∧ r.status.code = .ok

/-- A section of a transaction writes to the store only by such a commit. -/
private theorem store_frame {s s' : State} {a : Action} {r : Option Reply} {id : Nat} (h : Fires s a r s')
    (hb : AllBuffered s) (hown : a.client = some id) :
    s'.store = s.store ∨ ∃ txn, AppliesWrites id txn ⟨s, a, r, s'⟩ := by
  cases h with
  | fetchTxnId | write | runOnce | visitShard | finishScan | collectGarbage | addStats =>
    simp [Action.client] at hown
  | @commit id' txn want hc ha =>
    obtain rfl := Option.some.inj hown
    rcases (Fires.commit want hc ha).commit_cases hc ha hb with
      ⟨_, _, hs, _⟩ | ⟨he, _, hr, _⟩ | ⟨_, _, _, hs, _⟩
    · exact .inl hs
    · exact .inr ⟨txn, hc, he, want, _, rfl, rfl, by rw [hr]; rfl⟩
    · exact .inl hs
  | _ => exact .inl rfl

/-- What a store looks like after the write set is applied at its next version. -/
private theorem lookup_applied (s : VersionStore) (txn : Transaction) (key : String) :
    (s.append txn.ops).table.lookup key =
      match txn.writeSet.lookup key with
      | none => s.table.lookup key
      | some out => some (s.history key ++ [⟨s.nextVersion, out⟩]) := by
  rw [lookup_append, txn.entriesFor_ops]
  cases txn.writeSet.lookup key <;> simp

private theorem destroy_frame {s s' : State} {r : Option Reply} {id : Nat} (h : Fires s (.destroy id) r s') :
    s'.store = s.store ∧ s'.manager = s.manager := by
  cases h with
  | destroy | destroyFinished => exact ⟨rfl, rfl⟩

/-- Once it is finished, an object stays as it is until it is destroyed. -/
structure Finished (id : Nat) (txn : Transaction) (s : State) : Prop where
  state : txn.state ≠ .active
  drawn : id < s.manager.nextTxnId
  object : s.clients id = none ∨ s.object id = some txn

namespace Finished
variable {id : Nat} {txn : Transaction} {s s' : State} {a : Action} {r : Option Reply}

private theorem returned (hd : Finished id txn s) {txn' : Transaction} (hc : s.clients id = some (.returned txn')) :
    txn' = txn := by
  rcases hd.object with hn | ho
  · simp [hn] at hc
  · simpa [State.object, hc, Phase.object] using ho

/-- A call on a finished object is refused and changes nothing. -/
theorem call (h : Fires s a r s') (hd : Finished id txn s) (ha : a.IsCall id) :
    r = some Transaction.notActive ∧ s.clients id = some (.returned txn) ∧ s'.clients = s.clients ∧
      s'.store = s.store ∧ s'.manager = s.manager := by
  cases h with
  | @data id' txn' c hc =>
    obtain rfl : id' = id := ha
    obtain rfl := hd.returned hc
    rw [Transaction.exec_inactive hd.state]
    refine ⟨rfl, hc, ?_, rfl, rfl⟩
    rw [← hc]
    exact Function.update_eq_self _ _
  | @commit id' txn' want hc hact =>
    obtain rfl : id' = id := ha
    obtain rfl := hd.returned hc
    exact absurd hact hd.state
  | @commitRefused id' txn' want hc hact =>
    obtain rfl : id' = id := ha
    obtain rfl := hd.returned hc
    exact ⟨rfl, hc, rfl, rfl, rfl⟩
  | @abort id' txn' hc hact =>
    obtain rfl : id' = id := ha
    obtain rfl := hd.returned hc
    exact absurd hact hd.state
  | @abortRefused id' txn' hc hact =>
    obtain rfl : id' = id := ha
    obtain rfl := hd.returned hc
    exact ⟨rfl, hc, rfl, rfl, rfl⟩
  | _ => exact ha.elim

private theorem object_kept (h : Fires s a r s') (hd : Finished id txn s) :
    s'.clients id = none ∨ s'.object id = some txn := by
  by_cases hown : a.client = some id
  · obtain ⟨ph, ph', hc, hc', hm⟩ := h.moves hown
    have ho : ph.object = some txn := by
      rcases hd.object with hn | ho
      · simp [hn] at hc
      · simpa [State.object, hc] using ho
    rw [State.object, hc']
    cases hm with
    | placeholder | readVersion | refine => cases ho
    | data c =>
      obtain rfl := Option.some.inj ho
      rw [Transaction.exec_inactive hd.state]
      exact .inr rfl
    | commit want ha | abort ha | destroy ha =>
      obtain rfl := Option.some.inj ho
      exact absurd ha hd.state
    | commitRefused | abortRefused | unregister => exact .inr ho
    | destroyFinished | unregisterDestroyed => exact .inl rfl
  · rcases h.client_frame hown with hc | ⟨he, _⟩
    · rw [State.object, hc]
      exact hd.object
    · exact absurd hd.drawn (by omega)

theorem step (h : Fires s a r s') (hd : Finished id txn s) : Finished id txn s' :=
  ⟨hd.state, hd.drawn.trans_le h.nextTxnId_le, hd.object_kept h⟩

theorem path {s s' : State} {tr : List Event} (h : machine.Path s tr s') (hd : Finished id txn s) :
    Finished id txn s' :=
  h.invariant (I := fun _ s => Finished id txn s) hd
    (fun _ _ _ ht hd => hd.step (taken_fires ht))

end Finished

private theorem finished_later {post : List Event} {s s' : State} {id : Nat} {txn : Transaction}
    (h : machine.Path s post s') (hd : Finished id txn s) {t : Event} (ht : t ∈ post) :
    Finished id txn t.source ∧ Fires t.source t.label t.output t.target := by
  obtain ⟨before, _, _, hto, htaken, _⟩ := h.of_mem ht
  exact ⟨hd.path hto, taken_fires htaken⟩

private theorem finished_of_object {tr : List Event} {s : State} {id : Nat} {txn : Transaction}
    (h : machine.Execution tr s) (ho : s.object id = some txn) (hs : txn.state ≠ .active) : Finished id txn s := by
  refine ⟨hs, (registered_of_execution h).drawn id (fun hc => ?_), .inr ho⟩
  simp [State.object, hc] at ho

private theorem committed_finished {s s' : State} {r : Option Reply} {id : Nat} {want : Bool} {txn : Transaction}
    (hi : Registered s) (h : Fires s (.commit id want) r s') (hc : s.clients id = some (.returned txn))
    (ha : txn.state = .active) : Finished id (txn.commit s.store want).2.1 s' := by
  cases h with
  | @commit _ txn' want hc' _ =>
    obtain rfl : txn' = txn := by simpa [hc'] using hc
    exact ⟨txn'.commit_state s.store want, hi.drawn id (by simp [hc]), .inr (by simp [State.object, Phase.object])⟩
  | @commitRefused _ txn' want hc' hna =>
    obtain rfl : txn' = txn := by simpa [hc'] using hc
    exact absurd ha hna

/-- The only section of a transaction that changes the store is a commit that
succeeds with something to write; it adds one entry for each key of the write
set, at the next version, and happens at most once; and a finished transaction
refuses every call and changes nothing any more. -/
theorem transaction_touches_store_once {tr : List Event} {s : State} (h : machine.Execution tr s) (id : Nat) :
    (∀ t ∈ tr, t.label.client = some id →
      t.target.store = t.source.store ∨ ∃ txn, AppliesWrites id txn t) ∧
    (∀ t ∈ tr, ∀ txn, AppliesWrites id txn t →
      t.output.bind Reply.version = some t.source.store.nextVersion ∧
      t.target.store.nextVersion = t.source.store.nextVersion + 1 ∧
      ∀ key, t.target.store.table.lookup key =
        match txn.writeSet.lookup key with
        | none => t.source.store.table.lookup key
        | some out => some (t.source.store.history key ++ [⟨t.source.store.nextVersion, out⟩])) ∧
    (∀ pre t mid t' post txn txn', tr = pre ++ t :: mid ++ t' :: post →
      AppliesWrites id txn t → ¬ AppliesWrites id txn' t') ∧
    ∀ pre post txn, tr = pre ++ post → (∃ t ∈ post.head?, t.source.object id = some txn) →
      txn.state ≠ .active → ∀ t ∈ post,
        (t.label.IsCall id → (∃ r, t.output = some r ∧ r.status.code = .invalidArgument) ∧
          t.source.clients id = some (.returned txn) ∧ t.target.clients id = some (.returned txn) ∧
          t.target.store = t.source.store ∧ t.target.manager = t.source.manager) ∧
        (t.label = .destroy id → t.target.store = t.source.store ∧ t.target.manager = t.source.manager) := by
  refine ⟨fun t ht hown => ?_, fun t ht txn happ => ?_, ?_, ?_⟩
  · obtain ⟨pre, _, _, hpre, htaken, _⟩ := h.of_mem ht
    exact store_frame (taken_fires htaken) (allBuffered_of_execution hpre) hown
  · obtain ⟨pre, _, _, hpre, htaken, _⟩ := h.of_mem ht
    obtain ⟨hc, hne, want, r, hl, hout, hcode⟩ := happ
    have hf := taken_fires htaken
    rw [hl, hout] at hf
    obtain ⟨_, rfl, hstore, _⟩ := hf.commit_ok hc (allBuffered_of_execution hpre) hcode hne
    rw [hout, hstore]
    exact ⟨rfl, rfl, lookup_applied _ _⟩
  · rintro pre t mid t' post txn txn' rfl ⟨hc, hne, want, r, hl, hout, hcode⟩
      ⟨_, _, want', r', hl', hout', hcode'⟩
    rw [List.append_assoc, List.cons_append] at h
    obtain ⟨hpre, htaken, hpost⟩ := h.around
    have hf := taken_fires htaken
    rw [hl, hout] at hf
    have hd := committed_finished (registered_of_execution hpre) hf hc
      (hf.commit_ok hc (allBuffered_of_execution hpre) hcode hne).1
    obtain ⟨hd', hf'⟩ := finished_later hpost hd (t := t') (by simp)
    obtain ⟨hr, _⟩ := hd'.call hf' (by simp [hl', Action.IsCall])
    obtain rfl := Option.some.inj (hout'.symm.trans hr)
    exact Transaction.notActive_failed hcode'
  · rintro pre post txn rfl ⟨t₀, ht₀, ho⟩ hs t ht
    obtain ⟨rest, rfl⟩ : ∃ rest, post = t₀ :: rest := List.head?_eq_some_iff.mp ht₀
    obtain ⟨hpre, htaken, hpost⟩ := h.around
    obtain ⟨hd, hf⟩ := finished_later (Machine.Path.cons htaken hpost) (finished_of_object hpre ho hs) ht
    refine ⟨fun hcall => ?_, fun hl => destroy_frame (hl ▸ hf)⟩
    obtain ⟨hr, hc, hcl, hst, hm⟩ := hd.call hf hcall
    exact ⟨⟨_, hr, rfl⟩, hc, by rw [hcl, hc], hst, hm⟩

private def committedWriter : List Action :=
  [.fetchTxnId, .placeholder 1, .readVersion 1, .refine 1, .data 1 (.put "k" "1"), .commit 1 true, .unregister 1]

theorem transaction_touches_store_once_committed_writer :
    ∃ tr t s, machine.Execution (tr ++ [t]) s ∧ s.store.currentVersion = 1 ∧ t.label = .abort 1 ∧
      (∃ r, t.output = some r ∧ r.status.code = .invalidArgument) ∧ t.target.store = t.source.store := by
  obtain ⟨tr, s, txn, h, hv, hc, hs⟩ : ∃ tr s txn, machine.Execution tr s ∧ s.store.currentVersion = 1 ∧
      s.clients 1 = some (.returned txn) ∧ txn.state ≠ .active :=
    ⟨_, _, _, Machine.scheduled committedWriter (by decide), by decide, rfl, by decide⟩
  have hex := Machine.Path.snoc h (fires_taken (.abortRefused hc hs))
  have hlast := ((transaction_touches_store_once hex 1).2.2.2 tr _ txn rfl
    ⟨_, rfl, by simp [State.object, hc, Phase.object]⟩ hs _ (List.mem_singleton_self _)).1 rfl
  exact ⟨tr, _, _, hex, hv, rfl, hlast.1, hlast.2.2.2.1⟩

end MvccLite.Threads
