import MvccLite.Threads.Boundary

/-! A transaction that registers while no pass is in flight is met by every scan
that could sweep above it, so no sweep ever passes its snapshot. -/
namespace MvccLite.Threads
open Library TransactionManager

/-- Past its first shard visit and not done with the sweep. -/
def Pass.InFlight : Pass → Prop
  | .scanning next _ => 0 < next
  | .bounded _ => True
  | .idle | .collected _ => False

/-- An entry appears with the placeholder and only grows. -/
theorem Fires.entry_of {s s' : State} {a : Action} {r : Option Reply} (h : Fires s a r s') (hi : Registered s)
    {id e : Nat} (ha : a ≠ .placeholder id) (he : s'.entry id = some e) :
    ∃ e₀, s.entry id = some e₀ ∧ e₀ ≤ e := by
  by_cases hown : a.client = some id
  · obtain ⟨ph, ph', hc, hc', hm⟩ := h.moves hown
    rw [State.entry, hc'] at he
    rw [State.entry, hc]
    cases hm with
    | placeholder => exact absurd rfl ha
    | readVersion | refine => exact ⟨0, rfl, Nat.zero_le e⟩
    | @data txn c => exact ⟨e, by simpa [Phase.entry, txn.exec_fixed s.store c] using he, le_rfl⟩
    | @commit txn want hact =>
      exact ⟨e, by simpa [Phase.entry, txn.commit_fixed s.store want, hact] using he, le_rfl⟩
    | commitRefused | abortRefused => exact ⟨e, he, le_rfl⟩
    | @abort txn hact => exact ⟨e, by simpa [Phase.entry, txn.abort_fixed, hact] using he, le_rfl⟩
    | destroy hact => exact ⟨e, by simpa [Phase.entry, hact] using he, le_rfl⟩
    | destroyFinished | unregisterDestroyed => cases he
    | @unregister txn => simp [Phase.entry, hi.settled _ txn hc] at he
  · rcases h.client_frame hown with hc | ⟨_, hc⟩
    · exact ⟨e, by rwa [State.entry, hc] at he, le_rfl⟩
    · simp [State.entry, hc, Phase.entry] at he

theorem sweepBoundary_none {t : Event} (h : ∀ p, t.label ≠ .collectGarbage p) : sweepBoundary t = none := by
  unfold sweepBoundary
  split
  · rename_i p hl
    exact absurd hl (h p)
  · rfl

/-- No sweep so far went above the current version. -/
theorem highest_le_currentVersion {tr : List Event} {s : State} (h : machine.Execution tr s) :
    highest (boundaries tr) ≤ s.store.currentVersion := by
  refine h.invariant (I := fun tr s => highest (boundaries tr) ≤ s.store.currentVersion) le_rfl ?_
  intro tr t hp ht hle
  have hmono := (taken_fires ht).currentVersion_le (allBuffered_of_execution hp)
  rw [boundaries_concat]
  cases hs : sweepBoundary t with
  | none => simpa using hle.trans hmono
  | some b =>
    obtain ⟨p, _, hb⟩ := sweepBoundary_eq_some.mp hs
    have := (bounded_of_execution hp).bounds p b hb
    simpa using ⟨hle.trans hmono, this.trans hmono⟩

/-- Every pass that has gone past the transaction's shard has met its entry, and
no sweep so far went above its snapshot. -/
structure Guarded (id : Nat) (tr : List Event) (s : State) : Prop where
  seen : ∀ p next seen e, s.passes p = .scanning next seen → (shardFor id).val < next →
    s.entry id = some e → ∃ m, seen = some m ∧ m ≤ e
  bounds : ∀ p b e, s.passes p = .bounded b → s.entry id = some e → b ≤ e
  swept : ∀ v, s.snapshot id = some v → highest (boundaries tr) ≤ v

namespace Guarded
variable {id : Nat} {tr : List Event} {t : Event}

private theorem client (h : Fires t.source t.label t.output t.target) (hi : Registered t.source)
    (hv : highest (boundaries tr) ≤ t.source.store.currentVersion) (hpass : t.label.pass = none)
    (ha : t.label ≠ .placeholder id) (hg : Guarded id tr t.source) : Guarded id (tr ++ [t]) t.target where
  seen p next seen e hp hlt he := by
    rw [h.passes_eq hpass] at hp
    obtain ⟨e₀, he₀, hle⟩ := h.entry_of hi ha he
    obtain ⟨m, hm, hme⟩ := hg.seen p next seen e₀ hp hlt he₀
    exact ⟨m, hm, hme.trans hle⟩
  bounds p b e hp he := by
    rw [h.passes_eq hpass] at hp
    obtain ⟨e₀, he₀, hle⟩ := h.entry_of hi ha he
    exact (hg.bounds p b e₀ hp he₀).trans hle
  swept v hs := by
    have hn : sweepBoundary t = none := sweepBoundary_none (fun p hl => by simp [hl, Action.pass] at hpass)
    rw [boundaries_concat, hn, Option.toList_none, List.append_nil]
    rcases h.snapshot_of hi hs with hs | ⟨_, rfl⟩
    · exact hg.swept v hs
    · exact hv

private theorem setPass (hg : Guarded id tr t.source) {p : Nat} {pass : Pass}
    (hcl : t.target.clients = t.source.clients) (hp : t.target.passes = Function.update t.source.passes p pass)
    (hseen : ∀ next seen e, pass = .scanning next seen → (shardFor id).val < next →
      t.source.entry id = some e → ∃ m, seen = some m ∧ m ≤ e)
    (hbound : ∀ b e, pass = .bounded b → t.source.entry id = some e → b ≤ e)
    (hswept : ∀ b, sweepBoundary t = some b → ∀ v, t.source.snapshot id = some v → b ≤ v) :
    Guarded id (tr ++ [t]) t.target where
  seen q next seen e h hlt he := by
    rw [State.entry, hcl] at he
    rw [hp, Function.update_apply] at h
    split at h
    · exact hseen next seen e h hlt he
    · exact hg.seen q next seen e h hlt he
  bounds q b e h he := by
    rw [State.entry, hcl] at he
    rw [hp, Function.update_apply] at h
    split at h
    · exact hbound b e h he
    · exact hg.bounds q b e h he
  swept v hs := by
    rw [State.snapshot, hcl] at hs
    rw [boundaries_concat]
    cases hb : sweepBoundary t with
    | none => simpa using hg.swept v hs
    | some b => simpa using ⟨hg.swept v hs, hswept b hb v hs⟩

theorem step (h : Fires t.source t.label t.output t.target) (hi : Registered t.source)
    (hv : highest (boundaries tr) ≤ t.source.store.currentVersion) (ha : t.label ≠ .placeholder id)
    (hg : Guarded id tr t.source) : Guarded id (tr ++ [t]) t.target := by
  by_cases hpass : t.label.pass = none
  · exact client h hi hv hpass ha hg
  · obtain ⟨s, a, r, s'⟩ := t
    change Fires s a r s' at h
    cases h with
    | runOnce hp =>
      refine setPass hg rfl rfl (fun next seen e hm hlt _ => ?_) (by simp) (by simp [sweepBoundary])
      obtain ⟨rfl, _⟩ := Pass.scanning.inj hm
      omega
    | @visitShard p next seen hp hn =>
      refine setPass hg rfl rfl (fun next' seen' e hm hlt he => ?_) (by simp) (by simp [sweepBoundary])
      obtain ⟨rfl, rfl⟩ := Pass.scanning.inj hm
      by_cases hown : (shardFor id).val = next
      · exact scan_entry hi seen (Fin.ext hown : shardFor id = ⟨next, hn⟩) he
      · obtain ⟨m, rfl, hle⟩ := hg.seen p next seen e hp (by omega) he
        obtain ⟨m', hm', hle'⟩ := scan_seen (s.manager.shards ⟨next, hn⟩) m
        exact ⟨m', hm', hle'.trans hle⟩
    | @finishScan p seen hp =>
      refine setPass hg rfl rfl (by simp) (fun b e hm he => ?_) (by simp [sweepBoundary])
      obtain rfl := Pass.bounded.inj hm
      obtain ⟨m, rfl, hle⟩ := hg.seen p _ seen e hp (shardFor id).isLt he
      exact hle
    | @collectGarbage p b hp =>
      refine setPass hg rfl rfl (by simp) (by simp) (fun b' hb v hs => ?_)
      obtain ⟨q, hq, hb'⟩ := sweepBoundary_eq_some.mp hb
      obtain ⟨e, he, hle⟩ := State.entry_le hs
      exact (hg.bounds q b' e hb' he).trans hle
    | addStats hp => exact setPass hg rfl rfl (by simp) (by simp) (by simp [sweepBoundary])
    | _ => simp [Action.pass] at hpass

end Guarded

theorem placed_once {tr : List Event} {t : Event} {id : Nat} (h : machine.Execution tr t.source)
    (ht : machine.Taken t) (hocc : Occurs tr (.placeholder id)) : t.label ≠ .placeholder id := by
  intro hl
  have hf := taken_fires ht
  have hlived := lived_of_execution h id
  rw [hl] at hf
  generalize t.output = r, t.target = s' at hf
  cases hf with
  | placeholder hc =>
    rw [Lived, hc] at hlived
    exact hlived.1 hocc

/-- A transaction placed while no pass is in flight stays guarded for good. -/
theorem guarded_of_placed {pre post : List Event} {tp : Event} {s : State} {id : Nat}
    (h : machine.Execution (pre ++ tp :: post) s) (hl : tp.label = .placeholder id)
    (hcalm : ∀ p, ¬ (tp.source.passes p).InFlight) : Guarded id (pre ++ tp :: post) s := by
  obtain ⟨hpre, htp, hpost⟩ := h.around
  have hto : machine.Execution (pre ++ [tp]) tp.target := .snoc hpre htp
  have hpasses : tp.target.passes = tp.source.passes := (taken_fires htp).passes_eq (by simp [hl, Action.pass])
  have hstart : Guarded id (pre ++ [tp]) tp.target := by
    refine ⟨fun p next seen e hp hlt _ => ?_, fun p b e hp _ => ?_, fun v hv => ?_⟩
    · rw [hpasses] at hp
      exact absurd (by rw [hp]; exact Nat.lt_of_le_of_lt (Nat.zero_le _) hlt) (hcalm p)
    · rw [hpasses] at hp
      exact absurd (by rw [hp]; trivial) (hcalm p)
    · have hf := taken_fires htp
      rw [hl] at hf
      generalize tp.output = r, tp.target = s' at hf hv
      cases hf with
      | placeholder hc => simp [State.snapshot, Phase.snapshot] at hv
  have hall := hpost.invariant (I := fun tr s => Guarded id (pre ++ [tp] ++ tr) s)
    (by simpa using hstart) ?_
  · simpa using hall
  · intro tr t hp ht hg
    have hex := hto.append hp
    rw [← List.append_assoc]
    refine hg.step (taken_fires ht) (registered_of_execution hex) (highest_le_currentVersion hex) ?_
    exact placed_once hex ht ⟨tp, by simp, hl⟩

end MvccLite.Threads
