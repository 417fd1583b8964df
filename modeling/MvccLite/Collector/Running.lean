import MvccLite.Collector.Stopping

/-! What `IsBackgroundRunning` tells. It may say yes while nobody runs, inside a call or
after a start that found no thread; it never says no while somebody does. -/
namespace MvccLite.Collector
open Library

/-- The last `StartBackground` could not start its thread and nobody has stopped the collector since. -/
def startFailed (tr : List Event) : Bool :=
  tr.foldl (fun failed t =>
    match t.label with
    | .spawnFails => true
    | .clearRunning => false
    | _ => failed) false

private theorem startFailed_concat (tr : List Event) (t : Event) :
    startFailed (tr ++ [t]) =
      match t.label with
      | .spawnFails => true
      | .clearRunning => false
      | _ => startFailed tr := by
  simp only [startFailed, List.foldl_append, List.foldl_cons, List.foldl_nil]

/-- What `running_` stands for at each point of the controlling thread's code. -/
def State.Declares (s : State) (failed : Bool) : Prop :=
  match s.control with
  | .idle => (s.running = true ↔ s.backgroundThread ≠ none ∨ failed = true) ∧
      (failed = true → s.backgroundThread = none)
  | .resetting | .marking => s.running = false ∧ failed = false
  | .spawning => failed = false
  | .requesting _ | .notifying _ | .joining _ | .clearing _ => s.running = true
  | .dismantling | .destroyed | .terminated => s.running = false

/-- Until a stop is requested, the thread that can be joined does not leave its loop. -/
def State.Serves (s : State) : Prop :=
  s.control = .idle ∨ (∃ d, s.control = .requesting d) →
    ∀ n, s.backgroundThread = some n → s.stopRequested = false ∧ ∃ l, s.loops n = some l ∧ ¬ l.Left

section declares
variable {tr : List Event} {s s' : State} {a : Action} {r : Option Call} {failed : Bool}

theorem State.Declares.standing (h : s.Declares failed) {c : Control} (hc : s.control = c) :
    { s with control := c }.Declares failed := by
  subst hc
  exact h

private theorem startFailed_loop {n : Nat} {l l' : Loop} {stop : Bool} (hm : l.Moves stop n a l') :
    startFailed (tr ++ [⟨s, a, r, s'⟩]) = startFailed tr := by
  rw [startFailed_concat]
  cases hm <;> rfl

private theorem declares_step (h : Fires s a r s') (hi : Controlled s) (hd : s.Declares (startFailed tr)) :
    s'.Declares (startFailed (tr ++ [⟨s, a, r, s'⟩])) := by
  cases h with
  | loop _ hm =>
    rw [startFailed_loop hm]
    exact hd
  | spawnOver hc _ _ hh => exact absurd (hi.poised_at hc).1 hh
  | dismantleJoinable hc hh => exact absurd (hi.poised_at hc) hh
  | startRefused | stopRefused | other =>
    rw [startFailed_concat]
    exact hd
  | start hc hr =>
    rw [startFailed_concat]
    have hidle := (hd.standing hc).1
    refine ⟨hr, ?_⟩
    by_contra hf
    exact absurd (hidle.mpr (.inr (by simpa using hf))) (by simp [hr])
  | resetStop hc =>
    rw [startFailed_concat]
    exact hd.standing hc
  | setRunning hc =>
    rw [startFailed_concat]
    exact (hd.standing hc).2
  | @spawn n hc =>
    rw [startFailed_concat]
    have hfailed : startFailed tr = false := hd.standing hc
    refine ⟨⟨fun _ => .inl (Option.some_ne_none n), fun _ => (hi.poised_at hc).2.2⟩, fun hf => ?_⟩
    cases hfailed.symm.trans hf
  | spawnFails hc =>
    rw [startFailed_concat]
    exact ⟨⟨fun _ => .inr rfl, fun _ => (hi.poised_at hc).2.2⟩, fun _ => (hi.poised_at hc).1⟩
  | stop _ hr | destruct _ hr | destructIdle _ hr => exact hr
  | requestStop hc | notifyAll hc | joinNobody hc | join hc => exact hd.standing hc
  | clearRunning hc =>
    rw [startFailed_concat]
    have hnone : s.backgroundThread = none := hi.poised_at hc
    refine ⟨⟨nofun, ?_⟩, nofun⟩
    rintro (hh | hf)
    · exact absurd hnone hh
    · cases hf
  | clearRunningLast => rfl
  | dismantle hc => exact hd.standing hc

private theorem not_left_of_moves {n : Nat} {l l' : Loop} (hm : l.Moves false n a l') (hl : ¬ l.Left) : ¬ l'.Left := by
  cases hm with
  | relock timedOut => cases timedOut <;> simp [Loop.Left]
  | leave => exact absurd (.inl rfl) hl
  | _ => simp [Loop.Left]

private theorem serves_step (h : Fires s a r s') (hi : Controlled s) (hv : s.Serves) : s'.Serves := by
  cases h with
  | startRefused | stopRefused | other => exact hv
  | spawn hc =>
    intro _ n hn
    obtain rfl := Option.some.inj hn
    exact ⟨(hi.poised_at hc).2.1, .ready, State.setLoop_loops_self, by simp [Loop.Left]⟩
  | spawnFails hc =>
    intro _ n hn
    cases (hi.poised_at hc).1.symm.trans hn
  | stop hc | destruct hc => exact fun _ => hv (.inl hc)
  | clearRunning hc =>
    intro _ n hn
    cases (show s.backgroundThread = none from hi.poised_at hc).symm.trans hn
  | @loop m _ l l' _ _ hl hm =>
    intro hs n hn
    obtain ⟨hstop, l₀, hl₀, hleft⟩ := hv hs n hn
    refine ⟨hstop, ?_⟩
    by_cases hmn : n = m
    · subst hmn
      obtain rfl : l = l₀ := Option.some.inj (hl.symm.trans hl₀)
      rw [hstop] at hm
      exact ⟨l', State.setLoop_loops_self, not_left_of_moves hm hleft⟩
    · exact ⟨l₀, (State.setLoop_loops_ne hmn).trans hl₀, hleft⟩
  | start | resetStop | setRunning | spawnOver | destructIdle | requestStop | notifyAll | joinNobody | join
  | clearRunningLast | dismantle | dismantleJoinable =>
    rintro (hc | ⟨d, hc⟩)
    · cases hc
    · cases hc

end declares

theorem declares_of_execution {tr : List Event} {s : State} (h : machine.Execution tr s) :
    s.Declares (startFailed tr) :=
  h.invariant (I := fun tr s => s.Declares (startFailed tr)) ⟨by simp [machine, startFailed], fun _ => rfl⟩
    (fun _ _ hp ht hd => declares_step (taken_fires ht) (controlled_of_execution hp) hd)

theorem serves_of_execution {tr : List Event} {s : State} (h : machine.Execution tr s) : s.Serves :=
  h.invariant (I := fun _ s => s.Serves) (fun _ _ hn => by cases hn)
    (fun _ _ hp ht hv => serves_step (taken_fires ht) (controlled_of_execution hp) hv)

/-- With `running_` false there is nothing to join. -/
theorem nobody_of_not_running {tr : List Event} {s : State} (h : machine.Execution tr s) (hr : s.running = false) :
    s.backgroundThread = none := by
  have hd := declares_of_execution h
  have hi := controlled_of_execution h
  cases hc : s.control with
  | idle =>
    by_contra hh
    exact absurd ((hd.standing hc).1.mpr (.inl hh)) (by simp [hr])
  | resetting => exact hi.poised_at hc
  | marking => exact (hi.poised_at hc).1
  | spawning => exact (hi.poised_at hc).1
  | requesting | notifying | joining => exact absurd (hd.standing hc) (by simp [State.Declares, hr])
  | clearing | dismantling | destroyed => exact hi.poised_at hc
  | terminated => exact absurd (hi.poised_at hc) (by simp [State.Poised])

/-- In every interleaving: while a background thread is in its loop, `IsBackgroundRunning` is true.
Where it is false no such thread is left, none of the passes they ran is under way, and
`cv_mutex_` is free. Between the controlling thread's calls it is true exactly when a thread is in
its loop or the last start failed to make one, never both. -/
theorem isBackgroundRunning_tells {tr : List Event} {s : State} (h : machine.Execution tr s) :
    (∀ n, s.Live n → s.isBackgroundRunning = true) ∧
    (s.isBackgroundRunning = false →
      (∀ n l, s.loops n = some l → l = .finished ∧ s.sections.passes n = .idle) ∧ s.cvMutex = none) ∧
    (s.control = .idle → (s.isBackgroundRunning = true ↔ (∃ n, s.Live n) ∨ startFailed tr = true) ∧
      (startFailed tr = true → ∀ n, ¬ s.Live n)) := by
  have hi := controlled_of_execution h
  have hd := declares_of_execution h
  refine ⟨fun n hlive => ?_, fun hr => ?_, fun hc => ?_⟩
  · by_contra hr
    exact hi.no_live (nobody_of_not_running h (by simpa [State.isBackgroundRunning] using hr)) n hlive
  · have hnone := hi.no_live (nobody_of_not_running h hr)
    have hdone : ∀ n l, s.loops n = some l → l = .finished := fun n l hl => by
      by_contra hne
      exact hnone n ⟨l, hl, hne⟩
    refine ⟨fun n l hl => ⟨hdone n l hl, ?_⟩, ?_⟩
    · exact ((tended_of_execution h).pass n l hl).mpr (by simp [hdone n l hl])
    · cases hx : s.cvMutex with
      | none => rfl
      | some n =>
        obtain ⟨l, hl, hin⟩ := (locked_of_execution h n).mp hx
        rw [hdone n l hl] at hin
        cases hin
  · have hlive : (∃ n, s.Live n) ↔ s.backgroundThread ≠ none := by
      constructor
      · rintro ⟨n, hn⟩
        rw [hi.live n hn]
        exact Option.some_ne_none n
      · intro hh
        obtain ⟨n, hn⟩ := Option.ne_none_iff_exists'.mp hh
        obtain ⟨_, l, hl, hleft⟩ := serves_of_execution h (.inl hc) n hn
        exact ⟨n, l, hl, fun he => hleft (.inr he)⟩
    have hidle := hd.standing hc
    rw [hlive]
    exact ⟨hidle.1, fun hf => hi.no_live (hidle.2 hf)⟩

/-- A start that finds no thread, refused starts, a stop, and a start that finds one. -/
private def startedTwice : List Action :=
  [.startBackground, .resetStop, .setRunning, .spawnFails, .startBackground, .stopBackground, .requestStop, .notifyAll,
    .join, .clearRunning, .startBackground, .resetStop, .setRunning, .spawn 0, .beginPass 0]

theorem isBackgroundRunning_tells_started_twice :
    ∃ tr s, machine.Execution tr s ∧ s.control = .idle ∧ startFailed tr = false ∧ s.isBackgroundRunning = true ∧
      ∃ n, s.Live n := by
  have h : machine.Execution (machine.trace startedTwice) (machine.final startedTwice) :=
    Machine.scheduled startedTwice (by decide)
  have hrun : (machine.final startedTwice).isBackgroundRunning = true := by decide
  have hfailed : startFailed (machine.trace startedTwice) = false := by decide
  obtain ⟨_, _, hidle⟩ := isBackgroundRunning_tells h
  refine ⟨_, _, h, by decide, hfailed, hrun, ((hidle (by decide)).1.mp hrun).resolve_right ?_⟩
  simp [hfailed]

end MvccLite.Collector
