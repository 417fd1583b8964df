import MvccLite.Threads.Frames

/-! The way of a pass through its sections: how many it still has to take, and that
the next one is always possible. -/
namespace MvccLite.Threads
open Library TransactionManager

/-- What a section of its own does to pass `p`. -/
inductive Pass.Moves (p : Nat) : Action → Pass → Pass → Prop
  | runOnce : Moves p (.runOnce p) .idle (.scanning 0 none)
  | visitShard {next seen seen'} (hn : next < kNumShards) :
      Moves p (.visitShard p) (.scanning next seen) (.scanning (next + 1) seen')
  | finishScan {seen b} : Moves p (.finishScan p) (.scanning kNumShards seen) (.bounded b)
  | collectGarbage {b stats} : Moves p (.collectGarbage p) (.bounded b) (.collected stats)
  | addStats {stats} : Moves p (.addStats p) (.collected stats) .idle

/-- How many sections a pass still has to take. -/
def Pass.remaining : Pass → Nat
  | .idle => 0
  | .scanning next _ => 3 + (kNumShards - next)
  | .bounded _ => 2
  | .collected _ => 1

/-- No pass visits more shards than there are. -/
def Scanned (s : State) : Prop := ∀ p next seen, s.passes p = .scanning next seen → next ≤ kNumShards

section passes
variable {s s' : State} {a : Action} {r : Option Reply} {p : Nat} {x x' : Pass}

theorem Fires.pass_moves (h : Fires s a r s') (ha : a.pass = some p) :
    Pass.Moves p a (s.passes p) (s'.passes p) := by
  cases h with
  | runOnce hp =>
    obtain rfl := Option.some.inj ha
    rw [State.setPass_self, hp]
    exact .runOnce
  | visitShard hp hn =>
    obtain rfl := Option.some.inj ha
    rw [State.setPass_self, hp]
    exact .visitShard hn
  | finishScan hp =>
    obtain rfl := Option.some.inj ha
    rw [State.setPass_self, hp]
    exact .finishScan
  | collectGarbage hp =>
    obtain rfl := Option.some.inj ha
    rw [State.setPass_self, hp]
    exact .collectGarbage
  | addStats hp =>
    obtain rfl := Option.some.inj ha
    rw [State.setPass_self, hp]
    exact .addStats
  | _ => cases ha

theorem Pass.Moves.begins (h : Moves p (.runOnce p) x x') : x = .idle ∧ x' = .scanning 0 none := by
  cases h
  exact ⟨rfl, rfl⟩

theorem Pass.Moves.ends (h : Moves p (.addStats p) x x') : x' = .idle := by
  cases h
  rfl

theorem Pass.Moves.continues (h : Moves p a x x') (hne : a ≠ .addStats p) : x' ≠ .idle := by
  cases h with
  | addStats => exact absurd rfl hne
  | _ => simp

/-- Every section of a pass is one of those that remained. -/
theorem Pass.Moves.remaining (h : Moves p a x x') (hne : a ≠ .runOnce p) : x'.remaining + 1 = x.remaining := by
  cases h with
  | runOnce => exact absurd rfl hne
  | visitShard hn =>
    simp only [Pass.remaining]
    omega
  | finishScan | collectGarbage | addStats => simp [Pass.remaining]

theorem Scanned.step (h : Fires s a r s') (hs : Scanned s) : Scanned s' := by
  intro p next seen hp
  by_cases ha : a.pass = some p
  · have hm := h.pass_moves ha
    rw [hp] at hm
    generalize s.passes p = x at hm
    cases hm with
    | runOnce => exact Nat.zero_le _
    | visitShard hn => exact hn
  · rw [h.pass_frame ha] at hp
    exact hs p next seen hp

/-- A pass that has begun can always take its next section. -/
theorem Scanned.next_section (hs : Scanned s) (hp : s.passes p ≠ .idle) :
    ∃ a, a.pass = some p ∧ a ≠ .runOnce p ∧ (s.step a).isSome = true := by
  cases hc : s.passes p with
  | idle => exact absurd hc hp
  | scanning next seen =>
    rcases (hs p next seen hc).lt_or_eq with hn | rfl
    · exact ⟨.visitShard p, rfl, by simp, by simp [State.step, State.stepPass, hc, hn]⟩
    · exact ⟨.finishScan p, rfl, by simp, by simp [State.step, State.stepPass, hc]⟩
  | bounded b => exact ⟨.collectGarbage p, rfl, by simp, by simp [State.step, State.stepPass, hc]⟩
  | collected stats => exact ⟨.addStats p, rfl, by simp, by simp [State.step, State.stepPass, hc]⟩

end passes

theorem scanned_of_execution {tr : List Event} {s : State} (h : machine.Execution tr s) : Scanned s :=
  h.invariant (I := fun _ s => Scanned s) (fun _ _ _ hp => by cases hp) (fun _ _ _ ht hs => hs.step (taken_fires ht))

end MvccLite.Threads
