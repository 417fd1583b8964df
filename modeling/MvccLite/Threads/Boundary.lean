import MvccLite.Threads.Frames

/-! The collection boundary against the snapshots it must not pass. A scan that
has seen no entry yet is blind: it may end at the version current when it ends,
and a transaction that registered behind it keeps an older snapshot. -/
namespace MvccLite.Threads
open Library TransactionManager

section scans
variable {s : State} {seen : Option Nat} {sh : Fin kNumShards} {id e m : Nat}

/-- A scan that visits a shard sees every entry registered there. -/
theorem scan_entry (hi : Registered s) (seen : Option Nat) (hs : shardFor id = sh) (he : s.entry id = some e) :
    ∃ m, scanShard seen (s.manager.shards sh) = some m ∧ m ≤ e := by
  have hmem : e ∈ seen.toList ++ snapshots (s.manager.shards sh) := by
    refine List.mem_append_right _ (mem_snapshots.mpr ⟨id, ?_⟩)
    rw [hi.registry, if_pos hs.symm, he]
  rw [scanShard_eq]
  cases hm : (seen.toList ++ snapshots (s.manager.shards sh)).min? with
  | none =>
    rw [List.min?_eq_none_iff.mp hm] at hmem
    simp at hmem
  | some m => exact ⟨m, rfl, (List.min?_eq_some_iff.mp hm).2 e hmem⟩

theorem scan_seen (shard : Shard) (m : Nat) : ∃ m', scanShard (some m) shard = some m' ∧ m' ≤ m := by
  rw [scanShard_eq]
  cases hm : ((some m).toList ++ snapshots shard).min? with
  | none => simp at hm
  | some m' => exact ⟨m', rfl, (List.min?_eq_some_iff.mp hm).2 m (by simp)⟩

/-- What a scan has seen was seen before or is registered in the shard it visits. -/
theorem scan_from (hi : Registered s) (h : scanShard seen (s.manager.shards sh) = some m) :
    seen = some m ∨ ∃ id, s.entry id = some m := by
  rw [scanShard_eq] at h
  rcases List.mem_append.mp (List.min?_eq_some_iff.mp h).1 with hm | hm
  · exact .inl (by simpa using hm)
  · obtain ⟨id, hl⟩ := mem_snapshots.mp hm
    rw [hi.registry] at hl
    exact .inr ⟨id, (Option.ite_none_right_eq_some.mp hl).2⟩

end scans

/-- Nothing in flight exceeds the current version. -/
structure Bounded (s : State) : Prop where
  snapshots : ∀ id v, s.snapshot id = some v → v ≤ s.store.currentVersion
  seen : ∀ p next m, s.passes p = .scanning next (some m) → m ≤ s.store.currentVersion
  bounds : ∀ p b, s.passes p = .bounded b → b ≤ s.store.currentVersion

namespace Bounded

theorem initial : Bounded {} where
  snapshots _ _ h := by cases h
  seen _ _ _ h := by cases h
  bounds _ _ h := by cases h

theorem entry_le {s : State} (hb : Bounded s) {id e : Nat} (h : s.entry id = some e) :
    e ≤ s.store.currentVersion := by
  rcases State.entry_eq h with rfl | hs
  · exact Nat.zero_le _
  · exact hb.snapshots id e hs

/-- One pass moves, the store's counter and the clients stand still. -/
private theorem setPass {s s' : State} (hb : Bounded s) {p : Nat} {pass : Pass} (hc : s'.clients = s.clients)
    (hv : s'.store.currentVersion = s.store.currentVersion) (hp : s'.passes = Function.update s.passes p pass)
    (hseen : ∀ next m, pass = .scanning next (some m) → m ≤ s.store.currentVersion)
    (hbound : ∀ b, pass = .bounded b → b ≤ s.store.currentVersion) : Bounded s' where
  snapshots id v h := by
    rw [hv]
    exact hb.snapshots id v (by rwa [State.snapshot, hc] at h)
  seen q next m h := by
    rw [hv]
    rw [hp, Function.update_apply] at h
    split at h
    · exact hseen next m h
    · exact hb.seen q next m h
  bounds q b h := by
    rw [hv]
    rw [hp, Function.update_apply] at h
    split at h
    · exact hbound b h
    · exact hb.bounds q b h

private theorem client {s s' : State} {a : Action} {r : Option Reply} (h : Fires s a r s') (hi : Registered s)
    (hbuf : AllBuffered s) (ha : a.pass = none) (hb : Bounded s) : Bounded s' where
  snapshots id v hv := by
    rcases h.snapshot_of hi hv with hv | ⟨_, rfl⟩
    · exact (hb.snapshots id v hv).trans (h.currentVersion_le hbuf)
    · exact h.currentVersion_le hbuf
  seen p next m hp := by
    rw [h.passes_eq ha] at hp
    exact (hb.seen p next m hp).trans (h.currentVersion_le hbuf)
  bounds p b hp := by
    rw [h.passes_eq ha] at hp
    exact (hb.bounds p b hp).trans (h.currentVersion_le hbuf)

theorem step {s s' : State} {a : Action} {r : Option Reply} (h : Fires s a r s') (hi : Registered s)
    (hbuf : AllBuffered s) (hb : Bounded s) : Bounded s' := by
  by_cases ha : a.pass = none
  · exact client h hi hbuf ha hb
  · cases h with
    | runOnce hc => exact setPass hb rfl rfl rfl (by simp) (by simp)
    | @visitShard p next seen hc hn =>
      refine setPass hb rfl rfl rfl (fun next' m hm => ?_) (by simp)
      obtain ⟨rfl, hseen⟩ := Pass.scanning.inj hm
      rcases scan_from hi hseen with rfl | ⟨id, he⟩
      · exact hb.seen p next m hc
      · exact hb.entry_le he
    | @finishScan p seen hc =>
      refine setPass hb rfl rfl rfl (by simp) (fun b hm => ?_)
      obtain rfl := Pass.bounded.inj hm
      cases seen with
      | none => exact le_rfl
      | some m => exact hb.seen p _ m hc
    | collectGarbage hc => exact setPass hb rfl rfl rfl (by simp) (by simp)
    | addStats hc => exact setPass hb rfl rfl rfl (by simp) (by simp)
    | _ => simp [Action.pass] at ha

end Bounded

theorem bounded_of_execution {tr : List Event} {s : State} (h : machine.Execution tr s) : Bounded s :=
  h.invariant (I := fun _ s => Bounded s) .initial
    (fun _ _ hp ht hb => hb.step (taken_fires ht) (registered_of_execution hp) (allBuffered_of_execution hp))

/-- A blind scan has gone past the shard of a transaction that holds a snapshot. -/
def Exposed (s : State) : Prop :=
  ∃ p next id v, s.passes p = .scanning next none ∧ s.snapshot id = some v ∧ (shardFor id).val < next

/-- Every pass is at or below the snapshots behind it. -/
structure Covered (s : State) : Prop where
  seen : ∀ p next m id v, s.passes p = .scanning next (some m) → s.snapshot id = some v →
    (shardFor id).val < next → m ≤ v
  unseen : ∀ p next id v, s.passes p = .scanning next none → s.snapshot id = some v →
    (shardFor id).val < next → v = s.store.currentVersion
  bounds : ∀ p b id v, s.passes p = .bounded b → s.snapshot id = some v → b ≤ v

namespace Covered

theorem initial : Covered {} where
  seen _ _ _ _ _ h := by cases h
  unseen _ _ _ _ h := by cases h
  bounds _ _ _ _ h := by cases h

private theorem client {s s' : State} {a : Action} {r : Option Reply} (h : Fires s a r s') (hi : Registered s)
    (hb : Bounded s) (ha : a.pass = none)
    (hok : s.store.currentVersion ≠ s'.store.currentVersion → ¬ Exposed s) (hc : Covered s) : Covered s' where
  seen p next m id v hp hv hlt := by
    rw [h.passes_eq ha] at hp
    rcases h.snapshot_of hi hv with hv | ⟨_, rfl⟩
    · exact hc.seen p next m id v hp hv hlt
    · exact hb.seen p next m hp
  unseen p next id v hp hv hlt := by
    rw [h.passes_eq ha] at hp
    rcases h.snapshot_of hi hv with hv | ⟨rfl, rfl⟩
    · have heq : s.store.currentVersion = s'.store.currentVersion := by
        by_contra hne
        exact hok hne ⟨p, next, id, v, hp, hv, hlt⟩
      rw [← heq]
      exact hc.unseen p next id v hp hv hlt
    · cases h with
      | readVersion => rfl
  bounds p b id v hp hv := by
    rw [h.passes_eq ha] at hp
    rcases h.snapshot_of hi hv with hv | ⟨_, rfl⟩
    · exact hc.bounds p b id v hp hv
    · exact hb.bounds p b hp

private theorem setPass {s s' : State} (hc : Covered s) {p : Nat} {pass : Pass} (hcl : s'.clients = s.clients)
    (hv : s'.store.currentVersion = s.store.currentVersion) (hp : s'.passes = Function.update s.passes p pass)
    (hseen : ∀ next m id v, pass = .scanning next (some m) → s.snapshot id = some v →
      (shardFor id).val < next → m ≤ v)
    (hunseen : ∀ next id v, pass = .scanning next none → s.snapshot id = some v →
      (shardFor id).val < next → v = s.store.currentVersion)
    (hbound : ∀ b id v, pass = .bounded b → s.snapshot id = some v → b ≤ v) : Covered s' where
  seen q next m id v h hs hlt := by
    rw [State.snapshot, hcl] at hs
    rw [hp, Function.update_apply] at h
    split at h
    · exact hseen next m id v h hs hlt
    · exact hc.seen q next m id v h hs hlt
  unseen q next id v h hs hlt := by
    rw [State.snapshot, hcl] at hs
    rw [hp, Function.update_apply] at h
    rw [hv]
    split at h
    · exact hunseen next id v h hs hlt
    · exact hc.unseen q next id v h hs hlt
  bounds q b id v h hs := by
    rw [State.snapshot, hcl] at hs
    rw [hp, Function.update_apply] at h
    split at h
    · exact hbound b id v h hs
    · exact hc.bounds q b id v h hs

/-- The shard just visited covers its own transactions; the others were covered
before, and a blind scan that now sees something sees no more than the current version. -/
private theorem visit {s : State} (hi : Registered s) (hb : Bounded s) (hc : Covered s) {p next : Nat}
    {seen : Option Nat} (hp : s.passes p = .scanning next seen) (hn : next < kNumShards) {id v : Nat}
    (hs : s.snapshot id = some v) (hlt : (shardFor id).val < next + 1) :
    match scanShard seen (s.manager.shards ⟨next, hn⟩) with
    | some m => m ≤ v
    | none => v = s.store.currentVersion := by
  by_cases hown : (shardFor id).val = next
  · obtain ⟨e, he, hle⟩ := State.entry_le hs
    obtain ⟨m, hm, hme⟩ := scan_entry hi seen (Fin.ext hown : shardFor id = ⟨next, hn⟩) he
    rw [hm]
    exact hme.trans hle
  · have hbehind : (shardFor id).val < next := by omega
    cases seen with
    | some m =>
      obtain ⟨m', hm, hle⟩ := scan_seen (s.manager.shards ⟨next, hn⟩) m
      rw [hm]
      exact hle.trans (hc.seen p next m id v hp hs hbehind)
    | none =>
      have hv := hc.unseen p next id v hp hs hbehind
      cases hm : scanShard none (s.manager.shards ⟨next, hn⟩) with
      | none => exact hv
      | some m =>
        rcases scan_from hi hm with hno | ⟨id', he⟩
        · cases hno
        · exact hv ▸ hb.entry_le he

theorem step {s s' : State} {a : Action} {r : Option Reply} (h : Fires s a r s') (hi : Registered s)
    (hb : Bounded s) (hok : s.store.currentVersion ≠ s'.store.currentVersion → ¬ Exposed s) (hc : Covered s) :
    Covered s' := by
  by_cases ha : a.pass = none
  · exact client h hi hb ha hok hc
  · cases h with
    | runOnce hp =>
      refine setPass hc rfl rfl rfl (by simp) (fun next id v hm _ hlt => ?_) (by simp)
      obtain ⟨rfl, _⟩ := Pass.scanning.inj hm
      omega
    | @visitShard p next seen hp hn =>
      refine setPass hc rfl rfl rfl (fun next' m id v hm hs hlt => ?_) (fun next' id v hm hs hlt => ?_) (by simp)
      · obtain ⟨rfl, hseen⟩ := Pass.scanning.inj hm
        have := visit hi hb hc hp hn hs hlt
        rwa [hseen] at this
      · obtain ⟨rfl, hseen⟩ := Pass.scanning.inj hm
        have := visit hi hb hc hp hn hs hlt
        rwa [hseen] at this
    | @finishScan p seen hp =>
      refine setPass hc rfl rfl rfl (by simp) (by simp) (fun b id v hm hs => ?_)
      obtain rfl := Pass.bounded.inj hm
      cases seen with
      | some m => exact hc.seen p _ m id v hp hs (shardFor id).isLt
      | none => exact (hc.unseen p _ id v hp hs (shardFor id).isLt).ge
    | collectGarbage hp => exact setPass hc rfl rfl rfl (by simp) (by simp) (by simp)
    | addStats hp => exact setPass hc rfl rfl rfl (by simp) (by simp) (by simp)
    | _ => simp [Action.pass] at ha

end Covered

/-- The version counter moves only by a logged write. -/
theorem Fires.currentVersion_eq {s s' : State} {a : Action} {r : Option Reply} (h : Fires s a r s')
    (hb : AllBuffered s) (hw : writeEntry ⟨s, a, r, s'⟩ = none) :
    s.store.currentVersion = s'.store.currentVersion := by
  rcases h.store_cases hb with ⟨he, _⟩ | ⟨ops, _, _, hlog, _⟩ | ⟨p, b, _, _, he, _⟩
  · rw [he]
  · rw [hlog] at hw
    cases hw
  · rw [he]
    rfl

theorem currentVersion_mono {s s' : State} {pre post : List Event} (hpre : machine.Execution pre s)
    (h : machine.Path s post s') : s.store.currentVersion ≤ s'.store.currentVersion :=
  h.invariant (I := fun _ s' => s.store.currentVersion ≤ s'.store.currentVersion) le_rfl
    (fun _ _ hp ht hle =>
      hle.trans ((taken_fires ht).currentVersion_le (allBuffered_of_execution (hpre.append hp))))

/-- No write gets a version while a blind scan exposes somebody. -/
def NoWriteExposes (tr : List Event) : Prop := ∀ t ∈ tr, writeEntry t ≠ none → ¬ Exposed t.source

theorem covered_of_execution {tr : List Event} {s : State} (h : machine.Execution tr s)
    (hok : NoWriteExposes tr) : Covered s := by
  refine h.admitted (I := fun _ s => Covered s) hok .initial ?_
  intro tr t hp ht hw hc
  have hb := allBuffered_of_execution hp
  refine hc.step (taken_fires ht) (registered_of_execution hp) (bounded_of_execution hp) (fun hne => hw ?_)
  exact fun hn => hne ((taken_fires ht).currentVersion_eq hb hn)

/-- Whenever the store is swept at `b`, every transaction that has read its
snapshot and is not yet unregistered has one from `b` on, and so has every
transaction that reads its snapshot later. -/
def BoundariesSafe (tr : List Event) : Prop :=
  ∀ pre t post b, tr = pre ++ t :: post → sweepBoundary t = some b →
    (∀ id v, t.source.snapshot id = some v → b ≤ v) ∧
    ∀ t' ∈ post, ∀ id v, t'.label = .readVersion id → t'.target.snapshot id = some v → b ≤ v

theorem sweepBoundary_eq_some {t : Event} {b : Nat} :
    sweepBoundary t = some b ↔ ∃ p, t.label = .collectGarbage p ∧ t.source.passes p = .bounded b := by
  unfold sweepBoundary
  constructor
  · intro h
    split at h
    · rename_i p hl
      split at h
      · rename_i b' hp
        obtain rfl := Option.some.inj h
        exact ⟨p, hl, hp⟩
      · cases h
    · cases h
  · rintro ⟨p, hl, hp⟩
    simp [hl, hp]

private theorem snapshot_unread {s s' : State} {r : Option Reply} {id : Nat}
    (h : Fires s (.readVersion id) r s') : s.snapshot id = none := by
  cases h with
  | readVersion hc => simp [State.snapshot, hc, Phase.snapshot]

/-- Boundaries are safe in every run in which no write gets a version while a
scan that has met no entry yet has gone past the shard of a transaction that
holds a snapshot. -/
theorem boundaries_safe {tr : List Event} {s : State} (h : machine.Execution tr s)
    (hok : NoWriteExposes tr) : BoundariesSafe tr := by
  rintro pre t post b rfl hs
  obtain ⟨p, _, hb⟩ := sweepBoundary_eq_some.mp hs
  obtain ⟨hpre, ht, hpost⟩ := h.around
  refine ⟨fun id v hv => ?_, fun t' ht' id v hl hv => ?_⟩
  · have hc := covered_of_execution hpre (fun u hu => hok u (by simp [hu]))
    exact hc.bounds p b id v hb hv
  · obtain ⟨mid, _, rfl, hmid, ht'', _⟩ := hpost.of_mem ht'
    have hle := (bounded_of_execution hpre).bounds p b hb
    have hreach := hpre.append (Machine.Path.cons ht hmid)
    have hmono := currentVersion_mono hpre (Machine.Path.cons ht hmid)
    rcases (taken_fires ht'').snapshot_of (registered_of_execution hreach) hv with hv' | ⟨_, rfl⟩
    · have hf := taken_fires ht''
      rw [hl] at hf
      rw [snapshot_unread hf] at hv'
      cases hv'
    · exact hle.trans hmono

/-- The next `n` shard visits of a pass. -/
def visits (p n : Nat) : List Action := List.replicate n (.visitShard p)

/-- The sections of `Begin`, when it draws `id`. -/
def beginSections (id : Nat) : List Action := [.fetchTxnId, .placeholder id, .readVersion id, .refine id]

/-- A write, the begin of a reader, and a whole pass over it. -/
private def calmPass : List Action :=
  .write (.put "k" "1") :: beginSections 1 ++ .runOnce 0 :: visits 0 16 ++ [.finishScan 0, .collectGarbage 0]

theorem boundaries_safe_calm_pass :
    boundaries (machine.trace calmPass) = [1] ∧ NoWriteExposes (machine.trace calmPass) ∧
      BoundariesSafe (machine.trace calmPass) := by
  have hrest : ∀ t ∈ (machine.trace calmPass).tail, writeEntry t = none := by decide
  have hok : NoWriteExposes (machine.trace calmPass) := by
    intro t ht hw
    rcases List.mem_cons.mp (ht : t ∈ ⟨{}, _, _, _⟩ :: (machine.trace calmPass).tail) with rfl | ht
    · rintro ⟨p, next, id, v, hp, _⟩
      cases hp
    · exact absurd (hrest t ht) hw
  exact ⟨by decide, hok, boundaries_safe (Machine.scheduled calmPass (by decide)) hok⟩

/-- Transaction 1 begins in shard 1 after the scan has passed it, a write moves
the store on, and the scan ends having met nobody. -/
private def overtakenScan : List Action :=
  .runOnce 0 :: visits 0 2 ++ beginSections 1 ++ .write (.put "k" "1") :: visits 0 14 ++ [.finishScan 0]

theorem boundary_passes_snapshot : ¬ ∀ tr s, machine.Execution tr s → BoundariesSafe tr := by
  intro hall
  obtain ⟨tr, s, hpre, hb, hv⟩ :
      ∃ tr s, machine.Execution tr s ∧ s.passes 0 = .bounded 1 ∧ s.snapshot 1 = some 0 :=
    ⟨_, _, Machine.scheduled overtakenScan (by decide), by decide, by decide⟩
  have hsafe := hall _ _ (.snoc hpre (fires_taken (.collectGarbage hb))) _ _ [] 1 rfl
    (sweepBoundary_eq_some.mpr ⟨0, rfl, hb⟩)
  exact absurd (hsafe.1 1 0 hv) (by decide)

end MvccLite.Threads
