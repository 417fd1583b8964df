import MvccLite.Collector.Running

/-! Every `StopBackground` can return, and soon: the controlling thread and its background
thread bring it to its end by themselves, and nobody has to sit out the interval. -/
namespace MvccLite.Collector
open Library

/-- Inside a `StopBackground` that found `running_` true, and whether the destructor called it. -/
def Control.stopping : Control → Option Bool
  | .requesting d | .notifying d | .joining d | .clearing d => some d
  | .idle | .resetting | .marking | .spawning | .dismantling | .destroyed | .terminated => none

/-- The step is the controlling thread's or one that its background thread takes without the
interval being over or a spurious wakeup. -/
def State.Prompt (s : State) (a : Action) : Prop :=
  a ∈ [Action.requestStop, .notifyAll, .join, .clearRunning, .dismantle] ∨
    ∃ n, s.backgroundThread = some n ∧ a.loop = some n ∧ a ≠ .timeOut n ∧ a ≠ .wakeSpuriously n

/-- How many steps the holder of `cv_mutex_` takes to release it. -/
def Loop.untilReleased : Loop → Nat
  | .testing => 3
  | .checking => 2
  | .blocking | .resuming | .leaving => 1
  | .ready | .inPass | .passed | .waiting | .woken _ | .finished => 0

def State.untilReleased (s : State) : Nat := (s.cvMutex.bind s.loops).elim 0 Loop.untilReleased

/-- How many steps are left at most until the thread is joined. -/
def State.untilJoined (s : State) : Nat :=
  match s.control with
  | .requesting _ => s.untilReleased + (kNumShards + 12)
  | .notifying _ => kNumShards + 11
  | .joining _ => s.backgroundThread.elim 0 s.rank + 1
  | .idle | .resetting | .marking | .spawning | .clearing _ | .dismantling | .destroyed | .terminated => 0

theorem State.untilJoined_le (s : State) : s.untilJoined ≤ kNumShards + 15 := by
  unfold State.untilJoined
  cases s.control with
  | requesting d =>
    have hle : s.untilReleased ≤ 3 := by
      unfold State.untilReleased
      cases s.cvMutex.bind s.loops with
      | none => exact Nat.zero_le 3
      | some l => cases l <;> simp [Loop.untilReleased]
    change s.untilReleased + (kNumShards + 12) ≤ _
    omega
  | joining d =>
    have hle : s.backgroundThread.elim 0 s.rank ≤ kNumShards + 9 := by
      cases s.backgroundThread with
      | none => exact Nat.zero_le _
      | some n => exact s.rank_le n
    change s.backgroundThread.elim 0 s.rank + 1 ≤ _
    omega
  | _ => simp

section descent
variable {tr : List Event} {s : State} {n : Nat} {l : Loop} {d : Bool}

private theorem untilReleased_setLoop (hx : s.cvMutex = some n) : (s.setLoop n l).untilReleased = l.untilReleased := by
  simp [State.untilReleased, State.setLoop, hx]

/-- Whoever holds `cv_mutex_` has a next step, towards giving it back. -/
private theorem release_step (hc : s.control = .requesting d) (hx : s.cvMutex = some n) (hl : s.loops n = some l)
    (hin : l.holds = true) :
    ∃ a s', s.step a = some (s', none) ∧ a.loop = some n ∧ a ≠ .timeOut n ∧ a ≠ .wakeSpuriously n ∧
      s'.control = .requesting d ∧ s'.backgroundThread = s.backgroundThread ∧ s'.untilReleased < l.untilReleased := by
  cases l with
  | testing =>
    have hstep : s.step (.testPredicate n) =
        some (s.setLoop n (if s.stopRequested then .checking else .blocking), none) := by
      simp [State.step, hc, State.stepLoop, hl]
    refine ⟨_, _, hstep, rfl, by simp, by simp, hc, rfl, ?_⟩
    rw [untilReleased_setLoop hx]
    split <;> decide
  | checking =>
    have hstep : s.step (.testStop n) =
        some (s.setLoop n (if s.stopRequested then .leaving else .resuming), none) := by
      simp [State.step, hc, State.stepLoop, hl]
    refine ⟨_, _, hstep, rfl, by simp, by simp, hc, rfl, ?_⟩
    rw [untilReleased_setLoop hx]
    split <;> decide
  | blocking =>
    have hstep : s.step (.block n) = some ({ s with cvMutex := none }.setLoop n .waiting, none) := by
      simp [State.step, hc, State.stepLoop, hl]
    exact ⟨_, _, hstep, rfl, by simp, by simp, hc, rfl, Nat.one_pos⟩
  | resuming =>
    have hstep : s.step (.unlock n) = some ({ s with cvMutex := none }.setLoop n .ready, none) := by
      simp [State.step, hc, State.stepLoop, hl]
    exact ⟨_, _, hstep, rfl, by simp, by simp, hc, rfl, Nat.one_pos⟩
  | leaving =>
    have hstep : s.step (.unlock n) = some ({ s with cvMutex := none }.setLoop n .finished, none) := by
      simp [State.step, hc, State.stepLoop, hl]
    exact ⟨_, _, hstep, rfl, by simp, by simp, hc, rfl, Nat.one_pos⟩
  | ready | inPass | passed | waiting | woken | finished => cases hin

/-- While the join is awaited nobody sits out the interval or wakes by itself. -/
private theorem not_asleep {a : Action} {r : Option Call} {s' : State} (h : Fires s a r s') (hc : s.control = .joining d)
    (hw : Awake s) : a ≠ .timeOut n ∧ a ≠ .wakeSpuriously n := by
  constructor
  · rintro rfl
    cases h with
    | loop hl hm =>
      cases hm
      exact (hw.rouses_at hc hl).2 rfl
  · rintro rfl
    cases h with
    | loop hl hm =>
      cases hm
      exact (hw.rouses_at hc hl).2 rfl

/-- A step towards the join is possible. -/
private def Closer (s : State) (d : Bool) : Prop :=
  ∃ a r s', s.step a = some (s', r) ∧ s.Prompt a ∧ s'.control.stopping = some d ∧
    (∀ n, s'.backgroundThread = some n → s.backgroundThread = some n) ∧ s'.untilJoined < s.untilJoined

private theorem requesting_closer (h : machine.Execution tr s) (hc : s.control = .requesting d) : Closer s d := by
  have hnow : s.untilJoined = s.untilReleased + (kNumShards + 12) := by simp [State.untilJoined, hc]
  cases hx : s.cvMutex with
  | none =>
    refine ⟨.requestStop, none, { s with stopRequested := true, control := .notifying d },
      by simp [State.step, State.stepControl, hc, hx], .inl (by simp), rfl, fun _ hn => hn, ?_⟩
    rw [hnow]
    change kNumShards + 11 < _
    omega
  | some n =>
    obtain ⟨l, hl, hin⟩ := (locked_of_execution h n).mp hx
    have hown : s.backgroundThread = some n :=
      (controlled_of_execution h).live n ⟨l, hl, by rintro rfl; cases hin⟩
    have hheld : s.untilReleased = l.untilReleased := by simp [State.untilReleased, hx, hl]
    obtain ⟨a, s', hstep, hloop, htime, hwake, hc', hb, hlt⟩ := release_step hc hx hl hin
    have hnext : s'.untilJoined = s'.untilReleased + (kNumShards + 12) := by simp [State.untilJoined, hc']
    refine ⟨a, none, s', hstep, .inr ⟨n, hown, hloop, htime, hwake⟩, ?_, fun m hm => hb ▸ hm, by omega⟩
    rw [hc']
    rfl

private theorem untilJoined_joining (hc : s.control = .joining d) :
    s.untilJoined = s.backgroundThread.elim 0 s.rank + 1 := by simp [State.untilJoined, hc]

private theorem notifying_closer (hc : s.control = .notifying d) : Closer s d := by
  refine ⟨.notifyAll, none, { s with loops := fun n => (s.loops n).map Loop.notified, control := .joining d },
    by simp [State.step, State.stepControl, hc], .inl (by simp), rfl, fun _ hn => hn, ?_⟩
  have hnow : s.untilJoined = kNumShards + 11 := by simp [State.untilJoined, hc]
  have hnext (s' : State) (hc' : s'.control = .joining d) : s'.untilJoined ≤ kNumShards + 10 := by
    rw [untilJoined_joining hc']
    cases s'.backgroundThread with
    | none => simp
    | some n => exact Nat.succ_le_succ (s'.rank_le n)
  exact hnow ▸ Nat.lt_succ_of_le (hnext _ rfl)

private theorem Fires.joined {r : Option Call} {s' : State} (h : Fires s .join r s') (hc : s.control = .joining d) :
    s'.control = .clearing d ∧ ∀ n, s'.backgroundThread = some n → s.backgroundThread = some n := by
  cases h with
  | joinNobody hc' =>
    obtain rfl := Control.joining.inj (hc.symm.trans hc')
    exact ⟨rfl, fun _ hn => hn⟩
  | join hc' =>
    obtain rfl := Control.joining.inj (hc.symm.trans hc')
    exact ⟨rfl, nofun⟩
  | loop _ hm => cases hm

private theorem joining_closer (h : machine.Execution tr s) (hc : s.control = .joining d) : Closer s d := by
  have hnow := untilJoined_joining hc
  obtain ⟨a, hwho, hsome⟩ := joining_enabled h hc
  obtain ⟨⟨s', r⟩, hstep⟩ := Option.isSome_iff_exists.mp hsome
  have hf := step_fires hstep
  refine ⟨a, r, s', hstep, ?_⟩
  rcases hwho with rfl | ⟨n, hn, hloop⟩
  · obtain ⟨hc', hkeep⟩ := hf.joined hc
    have hzero : s'.untilJoined = 0 := by simp [State.untilJoined, hc']
    refine ⟨.inl (by simp), ?_, hkeep, by omega⟩
    rw [hc']
    rfl
  · have hne : a ≠ .join := by
      rintro rfl
      cases hloop
    obtain ⟨⟨hc', hb⟩, _⟩ := hf.joining hc hne
    have hrank := hf.rank_step hc hn hne (controlled_of_execution h) (awake_of_execution h) (tended_of_execution h)
    rw [if_pos hloop] at hrank
    refine ⟨.inr ⟨n, hn, hloop, not_asleep hf hc (awake_of_execution h)⟩, ?_, fun m hm => hb ▸ hm, ?_⟩
    · rw [hc']
      rfl
    · rw [hnow, untilJoined_joining hc', hb, hn]
      exact Nat.succ_lt_succ (Nat.lt_of_succ_le hrank.le)

private theorem exists_closer (h : machine.Execution tr s) (hs : s.control.stopping = some d) (hr : s.untilJoined ≠ 0) :
    Closer s d := by
  cases hc : s.control with
  | requesting d' =>
    obtain rfl : d' = d := by simpa [Control.stopping, hc] using hs
    exact requesting_closer h hc
  | notifying d' =>
    obtain rfl : d' = d := by simpa [Control.stopping, hc] using hs
    exact notifying_closer hc
  | joining d' =>
    obtain rfl : d' = d := by simpa [Control.stopping, hc] using hs
    exact joining_closer h hc
  | idle | resetting | marking | spawning | clearing | dismantling | destroyed | terminated =>
    exact absurd (by simp [State.untilJoined, hc]) hr

private theorem clearing_of_joined (hs : s.control.stopping = some d) (hr : s.untilJoined = 0) :
    s.control = .clearing d := by
  cases hc : s.control with
  | clearing d' =>
    obtain rfl : d' = d := by simpa [Control.stopping, hc] using hs
    rfl
  | requesting | notifying | joining => simp [State.untilJoined, hc] at hr
  | idle | resetting | marking | spawning | dismantling | destroyed | terminated => simp [Control.stopping, hc] at hs

/-- From wherever `StopBackground` stands, prompt steps lead to the end of the join. -/
private theorem exists_joined (h : machine.Execution tr s) (hs : s.control.stopping = some d) :
    ∃ tr' s', machine.Path s tr' s' ∧ (∀ t ∈ tr', s.Prompt t.label) ∧ s'.control = .clearing d ∧
      tr'.length ≤ kNumShards + 15 := by
  have hdescent := Machine.exists_descent (M := machine) (A := fun t => s.Prompt t.label)
    (C := fun s' => (∃ tr', machine.Execution tr' s') ∧ s'.control.stopping = some d ∧
      ∀ n, s'.backgroundThread = some n → s.backgroundThread = some n) State.untilJoined ?_
    ⟨⟨tr, h⟩, hs, fun _ hn => hn⟩
  · obtain ⟨tr', s', hp, hprompt, ⟨_, hs', _⟩, hzero, hlen⟩ := hdescent
    exact ⟨tr', s', hp, hprompt, clearing_of_joined hs' hzero, hlen.trans s.untilJoined_le⟩
  · rintro s₁ ⟨⟨tr₁, h₁⟩, hs₁, hkeep⟩ hr
    obtain ⟨a, r, s', hstep, hprompt, hs', hkeep', hlt⟩ := exists_closer h₁ hs₁ hr
    have htaken : machine.Taken ⟨s₁, a, r, s'⟩ := hstep
    refine ⟨_, htaken, rfl, ?_, ⟨⟨_, .snoc h₁ htaken⟩, hs', fun n hn => hkeep n (hkeep' n hn)⟩, hlt⟩
    rcases hprompt with hmine | ⟨n, hn, hloop⟩
    · exact .inl hmine
    · exact .inr ⟨n, hkeep n hn, hloop⟩

/-- The rest of the call, once the thread is joined. -/
private theorem exists_returned (h : machine.Execution tr s) (hc : s.control = .clearing d) :
    ∃ tr' last s', machine.Path s (tr' ++ [last]) s' ∧ tr'.length ≤ 1 ∧
      (∀ t ∈ tr' ++ [last], t.label = .clearRunning ∨ t.label = .dismantle) ∧
      last.output = some (if d then .destruct else .stopBackground) ∧ s'.running = false := by
  cases d with
  | false =>
    have hclear : machine.Taken ⟨s, .clearRunning, some .stopBackground, { s with running := false, control := .idle }⟩ := by
      simp [Machine.Taken, machine, State.step, State.stepControl, hc]
    exact ⟨[], _, _, .snoc .nil hclear, Nat.zero_le 1, by simp, rfl, rfl⟩
  | true =>
    have hnone : s.backgroundThread = none := (controlled_of_execution h).poised_at hc
    have hclear : machine.Taken ⟨s, .clearRunning, none, { s with running := false, control := .dismantling }⟩ := by
      simp [Machine.Taken, machine, State.step, State.stepControl, hc]
    have hlast : machine.Taken ⟨{ s with running := false, control := .dismantling }, .dismantle, some .destruct,
        { s with running := false, control := .destroyed }⟩ := by
      simp [Machine.Taken, machine, State.step, State.stepControl, hnone]
    exact ⟨_, _, _, .snoc (.single hclear) hlast, by simp, by simp, rfl, rfl⟩

end descent

section waiting
variable {tr post : List Event} {s s' : State} {d : Bool}

private theorem joining_kept (hc : s.control = .joining d) (hp : machine.Path s post s') (hno : ¬ Occurs post .join) :
    s'.control = .joining d ∧ s'.backgroundThread = s.backgroundThread :=
  hp.admitted (A := fun t => t.label ≠ .join)
    (I := fun _ s' => s'.control = .joining d ∧ s'.backgroundThread = s.backgroundThread)
    (fun t ht hl => hno ⟨t, ht, hl⟩) ⟨hc, rfl⟩
    (fun _ _ _ ht hne hk =>
      have hkept := ((taken_fires ht).joining hk.1 hne).1
      ⟨hkept.1, hkept.2.trans hk.2⟩)

theorem Fires.loop_live {a : Action} {r : Option Call} {n : Nat} (h : Fires s a r s') (ha : a.loop = some n) :
    s.Live n := by
  cases h with
  | loop hl hm =>
    obtain rfl := Option.some.inj (hm.loop_eq.symm.trans ha)
    exact ⟨_, hl, hm.not_finished⟩
  | _ => cases ha

private theorem background_steps_le (h : machine.Execution tr s) (hc : s.control = .joining d)
    (hp : machine.Path s post s') (hno : ¬ Occurs post .join) :
    post.countP (fun t => t.label.loop.isSome) ≤ kNumShards + 9 := by
  have hown : ∀ t ∈ post, ∀ n, t.label.loop = some n → s.backgroundThread = some n := by
    intro t ht n hn
    obtain ⟨pre, rest, rfl, hpre, htaken, _⟩ := hp.of_mem ht
    have hkept := (joining_kept hc hpre (fun ⟨u, hu, hl⟩ => hno ⟨u, by simp [hu], hl⟩)).2
    have hlive := (taken_fires htaken).loop_live hn
    exact hkept ▸ (controlled_of_execution (h.append hpre)).live n hlive
  cases hn : s.backgroundThread with
  | none =>
    have hzero : post.countP (fun t => t.label.loop.isSome) = 0 := by
      refine List.countP_eq_zero.mpr (fun t ht hsome => ?_)
      obtain ⟨n, hl⟩ := Option.isSome_iff_exists.mp hsome
      cases hn.symm.trans (hown t ht n hl)
    omega
  | some n =>
    have hsame : post.countP (fun t => t.label.loop.isSome) = post.countP (fun t => t.label.loop = some n) := by
      refine List.countP_congr (fun t ht => ?_)
      constructor
      · intro hsome
        obtain ⟨m, hm⟩ := Option.isSome_iff_exists.mp hsome
        obtain rfl := Option.some.inj (hn.symm.trans (hown t ht m hm))
        simpa using hm
      · intro hl
        simp [of_decide_eq_true hl]
    rw [hsame]
    exact joining_bounded h hc hn hp (fun t ht hl => hno ⟨t, ht, hl⟩)

end waiting

/-- From wherever a `StopBackground` stands in any interleaving, its own thread and the background
thread can bring it to its return, with the collector stopped, in a bounded number of steps and
without the interval being over. Once everybody is notified this no longer depends on the
schedule: until the join no thread sleeps, the background thread has a bounded number of steps
left, and it or the join can always go on. -/
theorem stopBackground_completes {tr : List Event} {s : State} {d : Bool} (h : machine.Execution tr s)
    (hs : s.control.stopping = some d) :
    (∃ tr' last s', machine.Path s (tr' ++ [last]) s' ∧ (tr' ++ [last]).length ≤ kNumShards + 17 ∧
      (∀ t ∈ tr' ++ [last], s.Prompt t.label) ∧ last.output = some (if d then .destruct else .stopBackground) ∧
      s'.isBackgroundRunning = false ∧ ∀ n, ¬ s'.Live n) ∧
    (s.control = .joining d → ∀ post s', machine.Path s post s' → ¬ Occurs post .join →
      (∀ n, s'.loops n ≠ some .waiting) ∧ post.countP (fun t => t.label.loop.isSome) ≤ kNumShards + 9 ∧
      ∃ a, (a = .join ∨ ∃ n, s'.backgroundThread = some n ∧ a.loop = some n) ∧ (s'.step a).isSome = true) := by
  constructor
  · obtain ⟨tr₁, s₁, hp₁, hprompt, hc₁, hlen₁⟩ := exists_joined h hs
    have h₁ := h.append hp₁
    obtain ⟨tr₂, last, s₂, hp₂, hlen₂, hlabels, hout, hrun⟩ := exists_returned h₁ hc₁
    refine ⟨tr₁ ++ tr₂, last, s₂, ?_, ?_, ?_, hout, hrun, ?_⟩
    · rw [List.append_assoc]
      exact hp₁.append hp₂
    · simp only [List.length_append, List.length_singleton]
      omega
    · intro t ht
      rw [List.append_assoc] at ht
      rcases List.mem_append.mp ht with ht | ht
      · exact hprompt t ht
      · rcases hlabels t ht with hl | hl <;> exact .inl (by simp [hl])
    · have h₂ := h₁.append hp₂
      exact (controlled_of_execution h₂).no_live (nobody_of_not_running h₂ hrun)
  · intro hc post s' hp hno
    have h' := h.append hp
    have hc' := (joining_kept hc hp hno).1
    exact ⟨joining_not_waiting h' hc', background_steps_le h hc hp hno, joining_enabled h' hc'⟩

/-- A collector that is asked to stop while it is about to wait. -/
private def stoppedEarly : List Action :=
  [[.startBackground, .resetStop, .setRunning, .spawn 0, .beginPass 0], List.replicate 16 (.passSection 0 (.visitShard 0)),
    [.passSection 0 (.finishScan 0), .passSection 0 (.collectGarbage 0), .endPass 0, .lock 0, .testPredicate 0,
      .destruct]].flatten

theorem stopBackground_completes_destruct :
    ∃ tr s, machine.Execution tr s ∧ s.control = .requesting true ∧ s.loops 0 = some .blocking ∧
      ∃ tr' last s', machine.Path s (tr' ++ [last]) s' ∧ last.output = some .destruct ∧ ∀ n, ¬ s'.Live n := by
  have h : machine.Execution (machine.trace stoppedEarly) (machine.final stoppedEarly) :=
    Machine.scheduled stoppedEarly (by decide)
  have hc : (machine.final stoppedEarly).control = .requesting true := by decide
  obtain ⟨⟨tr', last, s', hp, _, _, hout, _, hlive⟩, _⟩ := stopBackground_completes h (d := true) (by rw [hc]; rfl)
  exact ⟨_, _, h, hc, by decide, tr', last, s', hp, hout, hlive⟩

end MvccLite.Collector
