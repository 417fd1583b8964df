import MvccLite.Threads.Registry

/-! What the registry says about a run: an entry is there from the placeholder to
`Unregister`, in one shard, untouched by everybody else; and when no call is in
progress the sharded queries answer as one map of the active objects would. -/
namespace MvccLite.Threads
open Library TransactionManager

theorem Fires.nextTxnId_le {s s' : State} {a : Action} {r : Option Reply} (h : Fires s a r s') :
    s.manager.nextTxnId ≤ s'.manager.nextTxnId := by
  cases h with
  | fetchTxnId => exact Nat.le_succ _
  | _ => exact le_rfl

theorem nextTxnId_mono {s s' : State} {tr : List Event} (h : machine.Path s tr s') :
    s.manager.nextTxnId ≤ s'.manager.nextTxnId :=
  h.invariant (I := fun _ s' => s.manager.nextTxnId ≤ s'.manager.nextTxnId) le_rfl
    (fun _ _ _ ht hle => hle.trans (taken_fires ht).nextTxnId_le)

/-- A section of somebody else leaves a transaction's registry entry alone. -/
theorem Fires.entry_frame {s s' : State} {a : Action} {r : Option Reply} (h : Fires s a r s')
    (hi : Registered s) {id : Nat} (hne : a.client ≠ some id) (sh : Fin kNumShards) :
    (s'.manager.shards sh).lookup id = (s.manager.shards sh).lookup id := by
  rw [(hi.step h).registry, hi.registry]
  rcases h.client_frame hne with he | ⟨rfl, he⟩
  · rw [State.entry, State.entry, he]
  · have hn : s.clients s.manager.nextTxnId = none := by
      by_contra hc
      exact absurd (hi.drawn _ hc) (lt_irrefl _)
    rw [State.entry, State.entry, he, hn]
    rfl

/-- What a run has done to a transaction that stands in this phase: whether its
placeholder was inserted, refined and unregistered. -/
def Phase.Past (undrawn inserted refined removed : Prop) : Option Phase → Prop
  | none => (inserted → removed) ∧ (undrawn → ¬ inserted ∧ ¬ refined ∧ ¬ removed)
  | some .allocated => ¬ inserted ∧ ¬ refined ∧ ¬ removed
  | some .placed | some (.versionRead _) => inserted ∧ ¬ refined ∧ ¬ removed
  | some (.returned txn) => inserted ∧ refined ∧ (txn.state = .active ↔ ¬ removed)
  | some (.ending _) | some (.destroying _) => inserted ∧ refined ∧ ¬ removed

def Lived (tr : List Event) (s : State) (id : Nat) : Prop :=
  Phase.Past (s.manager.nextTxnId ≤ id) (Occurs tr (.placeholder id)) (Occurs tr (.refine id))
    (Occurs tr (.unregister id)) (s.clients id)

private theorem lived_other {tr : List Event} {t : Event} (h : Fires t.source t.label t.output t.target)
    (hi : Registered t.source) {id : Nat} (hne : t.label.client ≠ some id) (hl : Lived tr t.source id) :
    Lived (tr ++ [t]) t.target id := by
  have occurs {a : Action} (ha : a.client = some id) : Occurs (tr ++ [t]) a ↔ Occurs tr a :=
    occurs_concat.trans (or_iff_left (fun he => hne (by rw [he, ha])))
  have hp := occurs (a := .placeholder id) rfl
  have hr := occurs (a := .refine id) rfl
  have hu := occurs (a := .unregister id) rfl
  unfold Lived at hl ⊢
  rw [hp, hr, hu]
  rcases h.client_frame hne with he | ⟨rfl, he⟩
  · rw [he]
    cases hc : t.source.clients id with
    | none =>
      rw [hc] at hl
      exact ⟨hl.1, fun hle => hl.2 (h.nextTxnId_le.trans hle)⟩
    | some ph =>
      rw [hc] at hl
      cases ph <;> exact hl
  · have hn : t.source.clients t.source.manager.nextTxnId = none := by
      by_contra hc
      exact absurd (hi.drawn _ hc) (lt_irrefl _)
    rw [hn] at hl
    rw [he]
    exact hl.2 le_rfl

private theorem lived_own {tr : List Event} {t : Event} (h : Fires t.source t.label t.output t.target)
    (hi : Registered t.source) {id : Nat} (hown : t.label.client = some id) (hl : Lived tr t.source id) :
    Lived (tr ++ [t]) t.target id := by
  obtain ⟨ph, ph', hc, hc', hm⟩ := h.moves hown
  have hdrawn : id < t.target.manager.nextTxnId := (hi.drawn id (by simp [hc])).trans_le h.nextTxnId_le
  rw [Lived, hc] at hl
  rw [Lived, hc', occurs_concat, occurs_concat, occurs_concat]
  generalize t.label = a at hm ⊢
  cases hm with
  | placeholder => simpa [Phase.Past] using hl.2
  | readVersion => simpa [Phase.Past] using hl
  | refine => simpa [Phase.Past] using And.intro hl.1 hl.2.2
  | @data txn c => simpa [Phase.Past, (txn.exec_fixed t.source.store c).2.2] using hl
  | commit want ha | abort ha | destroy ha => simpa [Phase.Past, ha] using hl
  | commitRefused want ha | abortRefused ha => simpa [Phase.Past, ha] using hl
  | destroyFinished ha =>
    have hrem : Occurs tr (.unregister id) := by simpa [Phase.Past, ha] using hl.2.2
    simp [Phase.Past, hrem, hdrawn]
  | @unregister txn => simpa [Phase.Past, hi.settled _ _ hc] using And.intro hl.1 hl.2.1
  | unregisterDestroyed => simp [Phase.Past, hdrawn]

theorem lived_of_execution {tr : List Event} {s : State} (h : machine.Execution tr s) (id : Nat) :
    Lived tr s id := by
  refine h.invariant (I := fun tr s => Lived tr s id) ?_ ?_
  · exact ⟨fun hh => absurd hh (not_occurs_nil _), fun _ =>
      ⟨not_occurs_nil _, not_occurs_nil _, not_occurs_nil _⟩⟩
  · intro tr t hp ht hl
    have hi := registered_of_execution hp
    by_cases hown : t.label.client = some id
    · exact lived_own (taken_fires ht) hi hown hl
    · exact lived_other (taken_fires ht) hi hown hl

/-- The entry is there from the placeholder to `Unregister`. -/
theorem entry_ne_none_iff {tr : List Event} {s : State} {id : Nat} (hl : Lived tr s id) :
    s.entry id ≠ none ↔ Occurs tr (.placeholder id) ∧ ¬ Occurs tr (.unregister id) := by
  unfold Lived at hl
  unfold State.entry
  cases hc : s.clients id with
  | none =>
    rw [hc] at hl
    simpa using hl.1
  | some ph =>
    rw [hc] at hl
    cases ph with
    | allocated => simp [Phase.entry, hl.1]
    | placed | versionRead => simpa [Phase.entry] using And.intro hl.1 hl.2.2
    | returned txn => simpa [Phase.entry, hl.1] using hl.2.2
    | ending | destroying => simpa [Phase.entry] using And.intro hl.1 hl.2.2

/-- It holds the placeholder until refinement and the object's snapshot after. -/
private theorem entry_value {tr : List Event} {s : State} {id v : Nat} (hl : Lived tr s id)
    (he : s.entry id = some v) :
    (¬ Occurs tr (.refine id) → v = 0) ∧
      (Occurs tr (.refine id) → ∃ txn, s.object id = some txn ∧ v = txn.snapshotVersion) := by
  unfold Lived at hl
  unfold State.entry at he
  unfold State.object
  cases hc : s.clients id with
  | none => simp [hc] at he
  | some ph =>
    rw [hc] at hl he
    cases ph with
    | allocated => simp [Phase.entry] at he
    | placed | versionRead =>
      obtain rfl : 0 = v := by simpa [Phase.entry] using he
      exact ⟨fun _ => rfl, fun hr => absurd hr hl.2.1⟩
    | returned txn =>
      refine ⟨fun hr => absurd hl.2.1 hr, fun _ => ⟨txn, rfl, ?_⟩⟩
      have := Option.ite_none_right_eq_some.mp he
      exact (Option.some.inj this.2).symm
    | ending txn | destroying txn =>
      exact ⟨fun hr => absurd hl.2.1 hr, fun _ => ⟨txn, rfl, (Option.some.inj he).symm⟩⟩

/-- No call on any transaction is in progress. -/
def Quiet (s : State) : Prop := ∀ id ph, s.clients id = some ph → ∃ txn, ph = .returned txn

/-- The snapshots of the active transaction objects. -/
def State.activeSnapshots (s : State) : List Nat :=
  (List.range s.manager.nextTxnId).filterMap (fun id =>
    match s.clients id with
    | some (.returned txn) => if txn.state = .active then some txn.snapshotVersion else none
    | _ => none)

private theorem activeSnapshots_eq {s : State} (hq : Quiet s) :
    s.activeSnapshots = (List.range s.manager.nextTxnId).filterMap s.entry := by
  refine List.filterMap_congr (fun id _ => ?_)
  cases hc : s.clients id with
  | none => simp [State.entry, hc]
  | some ph =>
    obtain ⟨txn, rfl⟩ := hq id ph hc
    simp [State.entry, hc, Phase.entry]

theorem mem_shard_iff {s : State} (hi : Registered s) {id : Nat} {sh : Fin kNumShards} :
    id ∈ s.manager.shards sh ↔ sh = shardFor id ∧ s.entry id ≠ none := by
  rw [← AList.lookup_isSome, hi.registry]
  by_cases hs : sh = shardFor id
  · simp [hs, Option.isSome_iff_ne_none]
  · simp [hs]

private theorem drawn_of_entry {s : State} (hi : Registered s) {id : Nat} (h : s.entry id ≠ none) :
    id < s.manager.nextTxnId := by
  refine hi.drawn id (fun hc => h ?_)
  rw [State.entry, hc]
  rfl

private theorem count_quiet {s : State} (hi : Registered s) (hq : Quiet s) :
    s.manager.activeTransactionCount = s.activeSnapshots.length := by
  have hperm : s.manager.registeredIds.Perm
      ((List.range s.manager.nextTxnId).filter (fun id => (s.entry id).isSome)) := by
    refine (List.perm_ext_iff_of_nodup ?_ (List.nodup_range.filter _)).mpr (fun id => ?_)
    · exact s.manager.registeredIds_nodup (fun id sh hm => ((mem_shard_iff hi).mp hm).1)
    · simp only [mem_registeredIds, mem_shard_iff hi, List.mem_filter, List.mem_range,
        Option.isSome_iff_ne_none, exists_eq_left]
      exact ⟨fun h => ⟨drawn_of_entry hi h, h⟩, fun h => h.2⟩
  rw [activeTransactionCount_eq, hperm.length_eq, activeSnapshots_eq hq, List.length_filterMap_eq_countP,
    List.countP_eq_length_filter]

theorem oldest_quiet {s : State} (hi : Registered s) (hq : Quiet s) :
    s.manager.oldestActiveSnapshot s.store = s.activeSnapshots.min?.getD s.store.currentVersion := by
  refine oldestActiveSnapshot_eq _ _ (fun v => ?_)
  rw [activeSnapshots_eq hq]
  simp only [List.mem_filterMap, List.mem_range, hi.registry]
  constructor
  · rintro ⟨id, _, he⟩
    exact ⟨shardFor id, id, by simpa using he⟩
  · rintro ⟨sh, id, he⟩
    have he' : s.entry id = some v := (Option.ite_none_right_eq_some.mp he).2
    exact ⟨id, drawn_of_entry hi (by simp [he']), he'⟩

/-- The sharded registry mirrors the live transactions exactly, in every
interleaving of the sections of any number of threads. -/
theorem registry_mirrors_transactions {tr : List Event} {s : State} (h : machine.Execution tr s) :
    (∀ id,
      ((s.manager.shards (shardFor id)).keys.count id = 1 ↔
        Occurs tr (.placeholder id) ∧ ¬ Occurs tr (.unregister id)) ∧
      ((s.manager.shards (shardFor id)).keys.count id ≤ 1) ∧
      (∀ sh, sh ≠ shardFor id → (s.manager.shards sh).keys.count id = 0) ∧
      ∀ v, (s.manager.shards (shardFor id)).lookup id = some v →
        (¬ Occurs tr (.refine id) → v = 0) ∧
        (Occurs tr (.refine id) → ∃ txn, s.object id = some txn ∧ v = txn.snapshotVersion)) ∧
    (∀ t ∈ tr, ∀ id, t.label.client ≠ some id → ∀ sh,
      (t.target.manager.shards sh).lookup id = (t.source.manager.shards sh).lookup id) ∧
    (Quiet s → s.manager.activeTransactionCount = s.activeSnapshots.length ∧
      s.manager.oldestActiveSnapshot s.store = s.activeSnapshots.min?.getD s.store.currentVersion) := by
  have hi := registered_of_execution h
  refine ⟨fun id => ⟨?_, ?_, ?_, ?_⟩, ?_, fun hq => ⟨count_quiet hi hq, oldest_quiet hi hq⟩⟩
  · rw [← entry_ne_none_iff (lived_of_execution h id)]
    have hm : id ∈ (s.manager.shards (shardFor id)).keys ↔ s.entry id ≠ none := by
      rw [← AList.mem_keys]
      simpa using (mem_shard_iff hi : id ∈ s.manager.shards (shardFor id) ↔ _)
    rw [← hm]
    constructor
    · intro hc
      exact List.count_pos_iff.mp (by omega)
    · exact List.count_eq_one_of_mem (s.manager.shards _).keys_nodup
  · exact List.nodup_iff_count_le_one.mp (s.manager.shards _).keys_nodup id
  · intro sh hs
    refine List.count_eq_zero.mpr (fun hm => hs ?_)
    exact ((mem_shard_iff hi).mp (AList.mem_keys.mpr hm)).1
  · intro v hv
    rw [hi.registry, if_pos rfl] at hv
    exact entry_value (lived_of_execution h id) hv
  · intro t ht id hne sh
    obtain ⟨pre, post, rfl, hp, htk, _⟩ := h.of_mem ht
    exact (taken_fires htk).entry_frame (registered_of_execution hp) hne sh

/-- Two transactions begin around a write, and the first one aborts. -/
private def abortedReader : List Action :=
  [.fetchTxnId, .placeholder 1, .fetchTxnId, .readVersion 1, .refine 1, .write (.put "k" "1"), .placeholder 2,
    .readVersion 2, .abort 1, .refine 2, .unregister 1]

theorem registry_mirrors_transactions_aborted_reader :
    ∃ tr s, machine.Execution tr s ∧ Quiet s ∧ s.activeSnapshots = [1] ∧ s.manager.activeTransactionCount = 1 ∧
      s.manager.oldestActiveSnapshot s.store = 1 := by
  obtain ⟨tr, s, h, hids, hcs, hactive⟩ : ∃ tr s, machine.Execution tr s ∧ s.manager.nextTxnId = 3 ∧
      (∀ id < 3, ∀ ph ∈ s.clients id, ∃ txn, ph = .returned txn) ∧ s.activeSnapshots = [1] := by
    refine ⟨_, _, Machine.scheduled abortedReader (by decide), by decide, ?_, by decide⟩
    intro id hid ph hph
    obtain rfl | rfl | rfl : id = 0 ∨ id = 1 ∨ id = 2 := by omega
    · cases hph
    · exact ⟨_, (Option.some.inj hph).symm⟩
    · exact ⟨_, (Option.some.inj hph).symm⟩
  have hq : Quiet s := fun id ph hph =>
    hcs id (hids ▸ (registered_of_execution h).drawn id (by simp [hph])) ph hph
  obtain ⟨hcount, hold⟩ := (registry_mirrors_transactions h).2.2 hq
  exact ⟨tr, s, h, hq, hactive, by rw [hcount, hactive]; rfl, by rw [hold, hactive]; rfl⟩

end MvccLite.Threads
