import Mathlib.Algebra.BigOperators.Group.Finset.Basic
import MvccLite.Store.Ledger
import MvccLite.Threads.Frames

/-! The collector's books. Between its sweep and its update of the cumulative
counts a pass holds what it has reclaimed; with that added, nothing is ever
counted twice or lost, however many passes and writers interleave. -/
namespace MvccLite.Threads
open Library

/-- What the pass has swept and not yet reported. -/
def Pass.unreported : Pass → GCStats
  | .collected stats => stats
  | .idle | .scanning _ _ | .bounded _ => {}

/-- The entries that a section appends: one for each operation of a successful write. -/
def entriesAppended (t : Event) : Nat := (writeEntry t).elim 0 (fun w => w.ops.length)

/-- How often a section writes a key that is absent from the table at that moment. -/
def keysInserted (t : Event) : Nat :=
  (writeEntry t).elim 0 (fun w => t.source.store.table.insertions w.version w.ops)

/-- Everything a section can do to the counts. -/
theorem Fires.stats_cases {s s' : State} {a : Action} {r : Option Reply} (h : Fires s a r s') :
    ((∀ p, a ≠ .collectGarbage p) ∧ s'.cumulativeStats = s.cumulativeStats ∧
      ∀ p, (s'.passes p).unreported = (s.passes p).unreported) ∨
    (∃ p b, a = .collectGarbage p ∧ s.passes p = .bounded b ∧
      s' = { s with store := (s.store.collectGarbage b).1 }.setPass p (.collected (s.store.collectGarbage b).2)) ∨
    (∃ p stats, a = .addStats p ∧ s.passes p = .collected stats ∧
      s' = { s with cumulativeStats := s.cumulativeStats.add stats }.setPass p .idle) := by
  have moved {p : Nat} {x : Pass} (hx : x.unreported = {}) (hp : (s.passes p).unreported = {}) (q : Nat) :
      ((s.setPass p x).passes q).unreported = (s.passes q).unreported := by
    by_cases hq : q = p
    · subst hq
      rw [State.setPass_self, hx, hp]
    · simp [State.setPass, hq]
  cases h with
  | runOnce hp => exact .inl ⟨by simp, rfl, moved rfl (by rw [hp]; rfl)⟩
  | visitShard hp hn => exact .inl ⟨by simp, rfl, moved rfl (by rw [hp]; rfl)⟩
  | finishScan hp => exact .inl ⟨by simp, rfl, moved rfl (by rw [hp]; rfl)⟩
  | collectGarbage hp => exact .inr (.inl ⟨_, _, rfl, hp, rfl⟩)
  | addStats hp => exact .inr (.inr ⟨_, _, rfl, hp, rfl⟩)
  | _ => exact .inl ⟨by simp, rfl, fun _ => rfl⟩

section books
variable (m : Ledger)

/-- All passes together have swept this much without reporting it. -/
def Unreported (s : State) (n : Nat) : Prop :=
  ∃ ps : Finset Nat, (∀ p ∉ ps, m.ofStats (s.passes p).unreported = 0) ∧
    ∑ p ∈ ps, m.ofStats (s.passes p).unreported = n

variable {m}

theorem Unreported.congr {s s' : State} {n : Nat} (h : Unreported m s n)
    (hp : ∀ p, (s'.passes p).unreported = (s.passes p).unreported) : Unreported m s' n := by
  obtain ⟨ps, hout, hsum⟩ := h
  exact ⟨ps, by simpa only [hp] using hout, by simpa only [hp] using hsum⟩

/-- One pass changes its own share and nobody else's. -/
theorem Unreported.setPass {s : State} {n : Nat} (h : Unreported m s n) (p : Nat) (x : Pass) :
    ∃ n', Unreported m (s.setPass p x) n' ∧
      n' + m.ofStats (s.passes p).unreported = n + m.ofStats x.unreported := by
  obtain ⟨ps, hout, rfl⟩ := h
  have other {q : Nat} (hne : q ≠ p) : (s.setPass p x).passes q = s.passes q := Function.update_of_ne hne _ _
  refine ⟨_, ⟨insert p ps, fun q hq => ?_, rfl⟩, ?_⟩
  · rw [other (fun he => hq (by simp [he]))]
    exact hout q (fun hm => hq (by simp [hm]))
  · have hold : ∑ q ∈ insert p ps, m.ofStats (s.passes q).unreported =
        ∑ q ∈ ps, m.ofStats (s.passes q).unreported := Finset.sum_insert_of_eq_zero_if_notMem (hout p)
    have hrest : ∑ q ∈ (insert p ps).erase p, m.ofStats ((s.setPass p x).passes q).unreported =
        ∑ q ∈ (insert p ps).erase p, m.ofStats (s.passes q).unreported :=
      Finset.sum_congr rfl (fun q hq => by rw [other (Finset.ne_of_mem_erase hq)])
    have hnew := Finset.add_sum_erase (insert p ps) (fun q => m.ofStats ((s.setPass p x).passes q).unreported)
      (Finset.mem_insert_self p ps)
    have hwas := Finset.add_sum_erase (insert p ps) (fun q => m.ofStats (s.passes q).unreported)
      (Finset.mem_insert_self p ps)
    simp only [State.setPass_self] at hnew
    omega

theorem Unreported.eq_zero {s : State} {n : Nat} (h : Unreported m s n)
    (hp : ∀ p stats, s.passes p ≠ .collected stats) : n = 0 := by
  obtain ⟨ps, _, rfl⟩ := h
  refine Finset.sum_eq_zero (fun p _ => ?_)
  cases hq : s.passes p with
  | collected stats => exact absurd hq (hp p stats)
  | idle | scanning | bounded => exact m.zero

variable (m)

/-- What has been put in so far is in the table, in the counts, or with some pass. -/
def Balanced (s : State) (total : Nat) : Prop :=
  ∃ n, Unreported m s n ∧ m.held s.store.table + m.ofStats s.cumulativeStats + n = total

/-- What a section puts into the table. -/
def paidIn (t : Event) : Nat :=
  (writeEntry t).elim 0 (fun w => m.gained t.source.store.table w.version w.ops)

variable {m}

theorem Balanced.step {t : Event} {total : Nat} (h : Fires t.source t.label t.output t.target)
    (hb : AllBuffered t.source) (hbal : Balanced m t.source total) : Balanced m t.target (total + paidIn m t) := by
  obtain ⟨s, a, r, s'⟩ := t
  obtain ⟨n, hun, hsum⟩ := hbal
  dsimp only at h hb hun hsum ⊢
  rcases h.stats_cases with ⟨hne, hcum, hpass⟩ | ⟨p, b, rfl, hp, rfl⟩ | ⟨p, stats, rfl, hp, rfl⟩
  · refine ⟨n, hun.congr hpass, ?_⟩
    rcases h.store_cases hb with ⟨he, hw, _⟩ | ⟨ops, he, _, hw, _⟩ | ⟨p, b, ha, _⟩
    · rw [paidIn, hw, hcum, he]
      exact hsum
    · rw [paidIn, hw, hcum, he, m.held_append, Option.elim_some]
      dsimp only
      omega
    · exact absurd ha (hne p)
  · obtain ⟨n', hun', hn⟩ := hun.setPass p (.collected (s.store.collectGarbage b).2)
    rw [hp] at hn
    have hheld := m.held_collectGarbage s.store b
    have hzero := m.zero
    refine ⟨n', hun'.congr (fun _ => rfl), ?_⟩
    simp only [paidIn, writeEntry, Option.elim_none, State.setPass, Pass.unreported] at hn ⊢
    omega
  · obtain ⟨n', hun', hn⟩ := hun.setPass p .idle
    rw [hp] at hn
    have hadd := m.add s.cumulativeStats stats
    have hzero := m.zero
    refine ⟨n', hun'.congr (fun _ => rfl), ?_⟩
    simp only [paidIn, writeEntry, Option.elim_none, State.setPass, Pass.unreported] at hn ⊢
    omega

theorem balanced_of_execution {tr : List Event} {s : State} (h : machine.Execution tr s) :
    Balanced m s (tr.map (paidIn m)).sum := by
  refine h.invariant (I := fun tr s => Balanced m s (tr.map (paidIn m)).sum) ?_ ?_
  · exact ⟨0, ⟨∅, fun _ _ => m.zero, rfl⟩, by simp [machine, Ledger.held, m.zero]⟩
  · intro tr t hp ht hbal
    rw [List.map_append, List.sum_append, List.map_singleton, List.sum_singleton]
    exact hbal.step (taken_fires ht) (allBuffered_of_execution hp)

end books

/-- Whenever no pass stands between its sweep and its report: stored and reclaimed
entries are the entries ever appended, and stored and removed keys are the
insertions of absent keys. No counter can then exceed the number of entries written. -/
theorem collection_conserves_versions {tr : List Event} {s : State} (h : machine.Execution tr s)
    (hp : ∀ p stats, s.passes p ≠ .collected stats) :
    (s.store.table.keys.map s.store.versionCount).sum + s.cumulativeStats.versionsReclaimed =
      (tr.map entriesAppended).sum ∧
    s.store.keyCount + s.cumulativeStats.keysRemoved = (tr.map keysInserted).sum := by
  constructor
  · obtain ⟨n, hun, hsum⟩ := balanced_of_execution (m := .versions) h
    have hpaid : paidIn .versions = entriesAppended := by
      funext t
      simp only [paidIn, entriesAppended, Ledger.gained_versions]
    rw [hun.eq_zero hp, Ledger.held_versions, hpaid] at hsum
    exact hsum
  · obtain ⟨n, hun, hsum⟩ := balanced_of_execution (m := .keys) h
    have hpaid : paidIn .keys = keysInserted := by
      funext t
      simp only [paidIn, keysInserted, Ledger.gained_keys]
    rw [hun.eq_zero hp, Ledger.held_keys, hpaid] at hsum
    exact hsum

/-- Two passes that sweep one after the other and report in the other order,
over a key that is deleted, dropped and written again between the sweeps. -/
private def crossedPasses : List Action :=
  [[.write (.put "a" "1"), .write (.delete "a"), .runOnce 0], List.replicate 16 (.visitShard 0),
    [.finishScan 0, .write (.applyBatch [⟨"b", some "1"⟩, ⟨"b", some "2"⟩]), .runOnce 1],
    List.replicate 16 (.visitShard 1),
    [.finishScan 1, .collectGarbage 0, .write (.put "a" "2"), .collectGarbage 1, .addStats 1, .addStats 0]].flatten

theorem collection_conserves_versions_crossed_passes :
    ∃ tr s, machine.Execution tr s ∧ (∀ p stats, s.passes p ≠ .collected stats) ∧
      s.cumulativeStats = ⟨3, 1⟩ ∧ (s.store.table.keys.map s.store.versionCount).sum = 2 ∧
      (tr.map entriesAppended).sum = 5 ∧ (tr.map keysInserted).sum = 3 := by
  have h : machine.Execution (machine.trace crossedPasses) (machine.final crossedPasses) :=
    Machine.scheduled crossedPasses (by decide)
  have hidle : ∀ p, (machine.final crossedPasses).passes p = .idle := by
    intro p
    rcases p with _ | _ | p
    · decide
    · decide
    · rfl
  have hp : ∀ p stats, (machine.final crossedPasses).passes p ≠ .collected stats := by
    intro p stats
    simp [hidle p]
  obtain ⟨hversions, hkeys⟩ := collection_conserves_versions h hp
  exact ⟨_, _, h, hp, by decide, by decide, hversions.symm.trans (by decide), hkeys.symm.trans (by decide)⟩

end MvccLite.Threads
