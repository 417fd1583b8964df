import MvccLite.Threads.Guard

/-! How much a scan of the registry misses. Shards are visited one after the other,
so the boundary of a pass can pass a snapshot only if its transaction was registered
behind the scan and read its version before the scan was over. -/
namespace MvccLite.Threads
open Library TransactionManager

/-- The section visits the shard of the transaction, which is not registered at that moment. -/
def VisitsBefore (p id : Nat) (t : Event) : Prop :=
  t.label = .visitShard p ∧ (∃ seen, t.source.passes p = .scanning (shardFor id).val seen) ∧ t.source.entry id = none

/-- The section ends the scan at `b` when the transaction holds the snapshot `v` already. -/
def EndsAfter (p b id v : Nat) (t : Event) : Prop :=
  t.label = .finishScan p ∧ t.target.passes p = .bounded b ∧ t.source.snapshot id = some v

/-- The scan in progress has come by too early for the transaction. -/
def Overlooked (p id : Nat) (tr : List Event) : Prop :=
  ∃ pre tv mid, tr = pre ++ tv :: mid ∧ VisitsBefore p id tv ∧ ∀ t ∈ mid, t.label ≠ .runOnce p

/-- It has come by too early and has ended too late. -/
def Straddled (p b id v : Nat) (tr : List Event) : Prop :=
  ∃ pre tv mid tf post, tr = pre ++ tv :: mid ++ tf :: post ∧ VisitsBefore p id tv ∧ EndsAfter p b id v tf ∧
    ∀ t ∈ mid ++ tf :: post, t.label ≠ .runOnce p

/-- What a pass knows of a transaction. -/
def Pass.Knows (p id : Nat) (tr : List Event) (s : State) : Pass → Prop
  | .idle | .collected _ => True
  | .scanning next seen => (shardFor id).val < next → Overlooked p id tr ∨
      Occurs tr (.placeholder id) ∧ ∀ e, s.entry id = some e → ∃ m, seen = some m ∧ m ≤ e
  | .bounded b => ∀ v, s.snapshot id = some v → b ≤ v ∨ Straddled p b id v tr

theorem Overlooked.concat {p id : Nat} {tr : List Event} (h : Overlooked p id tr) {t : Event}
    (ht : t.label ≠ .runOnce p) : Overlooked p id (tr ++ [t]) := by
  obtain ⟨pre, tv, mid, rfl, hv, hmid⟩ := h
  exact ⟨pre, tv, mid ++ [t], by simp, hv, List.forall_mem_append.mpr ⟨hmid, List.forall_mem_singleton.mpr ht⟩⟩

theorem Straddled.concat {p b id v : Nat} {tr : List Event} (h : Straddled p b id v tr) {t : Event}
    (ht : t.label ≠ .runOnce p) : Straddled p b id v (tr ++ [t]) := by
  obtain ⟨pre, tv, mid, tf, post, rfl, hv, hf, hrest⟩ := h
  refine ⟨pre, tv, mid, tf, post ++ [t], by simp, hv, hf, ?_⟩
  rw [← List.cons_append, ← List.append_assoc]
  exact List.forall_mem_append.mpr ⟨hrest, List.forall_mem_singleton.mpr ht⟩

namespace Pass.Knows
variable {p id : Nat} {tr : List Event} {t : Event}

/-- Sections of others: entries only grow, and new snapshots lie above every boundary. -/
private theorem frame (hex : machine.Execution tr t.source) (ht : machine.Taken t) (hne : t.label.pass ≠ some p)
    (hk : Pass.Knows p id tr t.source (t.source.passes p)) :
    Pass.Knows p id (tr ++ [t]) t.target (t.target.passes p) := by
  have hf := taken_fires ht
  have hi := registered_of_execution hex
  have hrun : t.label ≠ .runOnce p := fun hl => hne (by rw [hl]; rfl)
  rw [hf.pass_frame hne]
  cases hp : t.source.passes p with
  | idle | collected => trivial
  | scanning next seen =>
    rw [hp] at hk
    intro hlt
    rcases hk hlt with hover | ⟨hocc, hseen⟩
    · exact .inl (hover.concat hrun)
    · refine .inr ⟨occurs_concat.mpr (.inl hocc), fun e he => ?_⟩
      obtain ⟨e₀, he₀, hle⟩ := hf.entry_of hi (placed_once hex ht hocc) he
      obtain ⟨m, hm, hme⟩ := hseen e₀ he₀
      exact ⟨m, hm, hme.trans hle⟩
  | bounded b =>
    rw [hp] at hk
    intro v hv
    rcases hf.snapshot_of hi hv with hv | ⟨_, rfl⟩
    · exact (hk v hv).imp_right (fun hs => hs.concat hrun)
    · exact .inl ((bounded_of_execution hex).bounds p b hp)

private theorem visit {s : State} {seen : Option Nat} {next : Nat} (hex : machine.Execution tr s)
    (hp : s.passes p = .scanning next seen) (hn : next < kNumShards) (hlt : (shardFor id).val < next + 1)
    (hk : Pass.Knows p id tr s (.scanning next seen)) {t : Event} (hs : t.source = s) (hl : t.label = .visitShard p)
    (hent : t.target.entry id = s.entry id) :
    Overlooked p id (tr ++ [t]) ∨ Occurs (tr ++ [t]) (.placeholder id) ∧ ∀ e, t.target.entry id = some e →
      ∃ m, scanShard seen (s.manager.shards ⟨next, hn⟩) = some m ∧ m ≤ e := by
  have hi := registered_of_execution hex
  by_cases hown : (shardFor id).val = next
  · cases he : s.entry id with
    | none =>
      refine .inl ⟨tr, t, [], rfl, ⟨hl, ⟨seen, ?_⟩, by rw [hs, he]⟩, by simp⟩
      rw [hs, hp, hown]
    | some e₀ =>
      have hocc := ((entry_ne_none_iff (lived_of_execution hex id)).mp (by simp [he])).1
      refine .inr ⟨occurs_concat.mpr (.inl hocc), fun e he' => ?_⟩
      exact scan_entry hi seen (Fin.ext hown : shardFor id = ⟨next, hn⟩) (hent ▸ he')
  · rcases hk (by omega) with hover | ⟨hocc, hseen⟩
    · exact .inl (hover.concat (by simp [hl]))
    · refine .inr ⟨occurs_concat.mpr (.inl hocc), fun e he => ?_⟩
      obtain ⟨m, rfl, hle⟩ := hseen e (hent ▸ he)
      obtain ⟨m', hm', hle'⟩ := scan_seen (s.manager.shards ⟨next, hn⟩) m
      exact ⟨m', hm', hle'.trans hle⟩

private theorem finish {s : State} {seen : Option Nat} (hp : s.passes p = .scanning kNumShards seen)
    (hk : Pass.Knows p id tr s (.scanning kNumShards seen)) {t : Event} (hs : t.source = s)
    (hl : t.label = .finishScan p) (ht : t.target.passes p = .bounded (boundary s.store seen))
    {v : Nat} (hv : s.snapshot id = some v) :
    boundary s.store seen ≤ v ∨ Straddled p (boundary s.store seen) id v (tr ++ [t]) := by
  rcases hk (shardFor id).isLt with ⟨pre, tv, mid, rfl, hvis, hmid⟩ | ⟨_, hseen⟩
  · refine .inr ⟨pre, tv, mid, t, [], by simp, hvis, ⟨hl, ht, by rw [hs, hv]⟩, ?_⟩
    exact List.forall_mem_append.mpr ⟨hmid, List.forall_mem_singleton.mpr (by simp [hl])⟩
  · obtain ⟨e, he, hle⟩ := State.entry_le hv
    obtain ⟨m, rfl, hme⟩ := hseen e he
    exact .inl (hme.trans hle)

theorem step (hex : machine.Execution tr t.source) (ht : machine.Taken t)
    (hk : Pass.Knows p id tr t.source (t.source.passes p)) :
    Pass.Knows p id (tr ++ [t]) t.target (t.target.passes p) := by
  by_cases hne : t.label.pass = some p
  · obtain ⟨s, a, r, s'⟩ := t
    have hf := taken_fires ht
    dsimp only at hex hk hne hf ⊢
    cases hf with
    | @runOnce q hp =>
      obtain rfl := Option.some.inj hne
      rw [State.setPass_self]
      intro hlt
      omega
    | @visitShard q next seen hp hn =>
      obtain rfl := Option.some.inj hne
      rw [hp] at hk
      rw [State.setPass_self]
      exact fun hlt => visit hex hp hn hlt hk rfl rfl rfl
    | @finishScan q seen hp =>
      obtain rfl := Option.some.inj hne
      rw [hp] at hk
      rw [State.setPass_self]
      exact fun v hv => finish hp hk rfl rfl (State.setPass_self _ _ _) hv
    | @collectGarbage q b hp =>
      obtain rfl := Option.some.inj hne
      rw [State.setPass_self]
      trivial
    | @addStats q stats hp =>
      obtain rfl := Option.some.inj hne
      rw [State.setPass_self]
      trivial
    | _ => simp [Action.pass] at hne
  · exact frame hex ht hne hk

end Pass.Knows

theorem knows_of_execution {tr : List Event} {s : State} (h : machine.Execution tr s) (p id : Nat) :
    Pass.Knows p id tr s (s.passes p) :=
  h.invariant (I := fun tr s => Pass.Knows p id tr s (s.passes p)) trivial (fun _ _ hp ht hk => hk.step hp ht)

/-- The boundary that a scan has computed never exceeds the current version, and it exceeds
the snapshot of a transaction only if that was not registered when this scan visited its shard
and had read its version by the time the scan ended. -/
theorem boundary_misses_only_overtaken {tr : List Event} {s : State} (h : machine.Execution tr s) {p b : Nat}
    (hb : s.passes p = .bounded b) : b ≤ s.store.currentVersion ∧
      ∀ id v, s.snapshot id = some v → v < b →
        ∃ pre tv mid tf post, tr = pre ++ tv :: mid ++ tf :: post ∧
          (tv.label = .visitShard p ∧ (∃ seen, tv.source.passes p = .scanning (shardFor id).val seen) ∧
            (tv.source.manager.shards (shardFor id)).lookup id = none) ∧
          (tf.label = .finishScan p ∧ tf.target.passes p = .bounded b ∧ tf.source.snapshot id = some v) ∧
          ∀ t ∈ mid ++ tf :: post, t.label ≠ .runOnce p := by
  refine ⟨(bounded_of_execution h).bounds p b hb, fun id v hv hlt => ?_⟩
  have hk := knows_of_execution h p id
  rw [hb] at hk
  rcases hk v hv with hle | ⟨pre, tv, mid, tf, post, rfl, ⟨hl, hscan, hent⟩, hf, hrest⟩
  · omega
  · refine ⟨pre, tv, mid, tf, post, rfl, ⟨hl, hscan, ?_⟩, hf, hrest⟩
    obtain ⟨hpre, _⟩ := (show machine.Execution (pre ++ tv :: (mid ++ tf :: post)) s by simpa using h).around
    rw [(registered_of_execution hpre).registry, if_pos rfl, hent]

/-- Transaction 1 begins in shard 1 behind the scan, and a write follows before the scan ends. -/
private def scanOvertaken : List Action :=
  .runOnce 0 :: visits 0 2 ++ beginSections 1 ++ .write (.put "k" "1") :: visits 0 14 ++ [.finishScan 0]

theorem boundary_misses_only_overtaken_behind_scan :
    ∃ tr s, machine.Execution tr s ∧ s.passes 0 = .bounded 1 ∧ s.snapshot 1 = some 0 ∧
      ∃ pre tv mid tf post, tr = pre ++ tv :: mid ++ tf :: post ∧ tv.label = .visitShard 0 ∧
        (tv.source.manager.shards (shardFor 1)).lookup 1 = none ∧ tf.label = .finishScan 0 ∧
        tf.source.snapshot 1 = some 0 := by
  have h := Machine.scheduled (M := machine) scanOvertaken (by decide)
  obtain ⟨_, hmiss⟩ := boundary_misses_only_overtaken h (p := 0) (b := 1) (by decide)
  obtain ⟨pre, tv, mid, tf, post, htr, ⟨hl, _, hout⟩, ⟨hf, _, hv⟩, _⟩ := hmiss 1 0 (by decide) (by decide)
  exact ⟨_, _, h, by decide, by decide, pre, tv, mid, tf, post, htr, hl, hout, hf, hv⟩

end MvccLite.Threads
