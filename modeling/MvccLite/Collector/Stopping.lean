import MvccLite.Collector.Lifecycle
import MvccLite.Threads.Passes

/-! How `StopBackground` comes to an end. `cv_mutex_` keeps the stop request out of the
moment between the predicate and the wait, so once everybody is notified the thread
no longer sleeps, and after a bounded number of its own steps it can be joined. -/
namespace MvccLite.Collector
open Library

/-- The thread is inside the section of `cv_mutex_`. -/
def State.Holds (s : State) (n : Nat) : Prop := ∃ l, s.loops n = some l ∧ l.holds = true

/-- The mutex belongs to whoever is inside its section. -/
def Locked (s : State) : Prop := ∀ n, s.cvMutex = some n ↔ s.Holds n

section mutex
variable {s s' : State} {n m : Nat} {l l' : Loop} {a : Action} {r : Option Call}

theorem State.holds_setLoop_self : (s.setLoop n l).Holds n ↔ l.holds = true := by
  simp [State.Holds]

theorem State.holds_setLoop_ne (h : m ≠ n) : (s.setLoop n l).Holds m ↔ s.Holds m := by
  simp [State.Holds, State.setLoop_loops_ne h]

theorem Loop.holds_notified : l.notified.holds = l.holds := by
  cases l <;> rfl

theorem Locked.initial : Locked {} := by
  intro n
  simp [State.Holds]

/-- A thread that is started holds nothing. -/
private theorem Locked.spawn (hk : Locked s) (hn : s.loops n = none) (hx : s'.cvMutex = s.cvMutex)
    (hl : s'.loops = s.loops) : Locked (s'.setLoop n .ready) := by
  intro m
  by_cases hm : m = n
  · subst hm
    rw [State.holds_setLoop_self]
    refine ⟨fun h => ?_, fun h => by cases h⟩
    obtain ⟨l, h, _⟩ := (hk m).mp (hx.symm.trans h)
    cases hn.symm.trans h
  · rw [State.holds_setLoop_ne hm, State.Holds, hl]
    exact hx ▸ hk m

private theorem Locked.loop (hk : Locked s) (hl : s.loops n = some l) {mutex : Option Nat}
    (hx : l.Hands n s.cvMutex l' mutex) (h' : s'.loops = s.loops) (hm' : s'.cvMutex = mutex) :
    Locked (s'.setLoop n l') := by
  have hown : s.Holds n ↔ l.holds = true := by simp [State.Holds, hl]
  intro m
  change s'.cvMutex = some m ↔ _
  rw [hm']
  by_cases hm : m = n
  · subst hm
    rw [State.holds_setLoop_self]
    cases hx with
    | keeps h => rw [← h, ← hown, hk m]
    | takes _ h => simp [h]
    | gives _ h => simp [h]
  · rw [State.holds_setLoop_ne hm, State.Holds, h', ← State.Holds, ← hk m]
    cases hx with
    | keeps => rfl
    | takes _ _ hfree => simp [hfree, Ne.symm hm]
    | gives h => simp [(hk n).mpr (hown.mpr h), Ne.symm hm]

theorem Locked.step (h : Fires s a r s') (hk : Locked s) : Locked s' := by
  cases h with
  | spawn hc hn | spawnOver hc hn => exact hk.spawn hn rfl rfl
  | notifyAll =>
    intro n
    simpa [Loop.holds_notified, State.Holds] using hk n
  | loop hl _ hx => exact hk.loop hl hx rfl rfl
  | _ => exact hk

end mutex

theorem locked_of_execution {tr : List Event} {s : State} (h : machine.Execution tr s) : Locked s :=
  h.invariant (I := fun _ s => Locked s) .initial (fun _ _ _ ht hk => hk.step (taken_fires ht))

/-- Where no thread stands while the controller is at this point: after the request
nobody prepares to wait, after the notification nobody waits. -/
def Control.Rouses (c : Control) (l : Loop) : Prop :=
  match c with
  | .notifying _ => l ≠ .blocking
  | .joining _ => l ≠ .blocking ∧ l ≠ .waiting
  | _ => True

def Awake (s : State) : Prop := ∀ n l, s.loops n = some l → s.control.Rouses l

namespace Awake
variable {s s' : State} {a : Action} {r : Option Call}

theorem initial : Awake {} := fun _ _ _ => trivial

theorem rouses_at (hw : Awake s) {c : Control} (hc : s.control = c) {n : Nat} {l : Loop} (hl : s.loops n = some l) :
    c.Rouses l := hc ▸ hw n l hl

private theorem moves_stopping {n : Nat} {l l' : Loop} (h : l.Moves true n a l') :
    l' ≠ .blocking ∧ (l' = .waiting → l = .blocking) := by
  cases h with
  | relock timedOut => cases timedOut <;> simp
  | _ => simp

private theorem rouses_moves {n : Nat} {l l' : Loop} (hi : Controlled s) (hw : s.control.Rouses l)
    (hm : l.Moves s.stopRequested n a l') : s.control.Rouses l' := by
  cases hc : s.control with
  | notifying d =>
    have hstop : s.stopRequested = true := hi.poised_at hc
    rw [hstop] at hm
    exact (moves_stopping hm).1
  | joining d =>
    have hstop : s.stopRequested = true := hi.poised_at hc
    rw [hstop] at hm
    rw [hc] at hw
    exact ⟨(moves_stopping hm).1, fun hl => hw.1 ((moves_stopping hm).2 hl)⟩
  | _ => trivial

theorem step (h : Fires s a r s') (hi : Controlled s) (hk : Locked s) (hw : Awake s) : Awake s' := by
  cases h with
  | startRefused | stopRefused | other => exact hw
  | requestStop hc hm =>
    rintro n l hl rfl
    have hn : s.cvMutex = some n := (hk n).mpr ⟨_, hl, rfl⟩
    cases hm.symm.trans hn
  | notifyAll hc =>
    intro n l hl
    obtain ⟨l₀, hl₀, rfl⟩ := Option.map_eq_some_iff.mp hl
    have hne : l₀ ≠ .blocking := hw.rouses_at hc hl₀
    cases l₀ with
    | blocking => exact absurd rfl hne
    | _ => exact ⟨by simp [Loop.notified], by simp [Loop.notified]⟩
  | loop hl hm =>
    intro m l₁ h₁
    change s.control.Rouses l₁
    rcases State.setLoop_cases h₁ with ⟨rfl, rfl⟩ | ⟨_, h₁⟩
    · exact rouses_moves hi (hw _ _ hl) hm
    · exact hw m l₁ h₁
  | _ => exact fun _ _ _ => trivial

end Awake

theorem awake_of_execution {tr : List Event} {s : State} (h : machine.Execution tr s) : Awake s :=
  h.invariant (I := fun _ s => Awake s) .initial
    (fun _ _ hp ht hw => hw.step (taken_fires ht) (controlled_of_execution hp) (locked_of_execution hp))

/-- What joins a loop to its thread and to its pass. -/
structure Tended (s : State) : Prop where
  thread : ∀ n, s.backgroundThread = some n → ∃ l, s.loops n = some l
  pass : ∀ n l, s.loops n = some l → (s.sections.passes n = .idle ↔ l ≠ .inPass)

section tended
variable {s s' : State} {n m : Nat} {l l' : Loop} {a : Action} {r : Option Call} {stop : Bool}
  {sections : Threads.State}

theorem State.Inner.section_fires {b : Threads.Action} (h : s.Inner a sections) (hb : a.inner = some b) :
    ∃ r, Threads.Fires s.sections b r sections := by
  unfold State.Inner at h
  rw [hb] at h
  obtain ⟨r, hr⟩ := h
  exact ⟨r, Threads.taken_fires hr⟩

theorem State.Inner.pass_moves {b : Threads.Action} (h : s.Inner a sections) (hb : a.inner = some b)
    (hp : b.pass = some n) : Threads.Pass.Moves n b (s.sections.passes n) (sections.passes n) := by
  obtain ⟨r, hr⟩ := h.section_fires hb
  exact hr.pass_moves hp

/-- A step takes nothing from the pass of another thread. -/
theorem State.Inner.pass_frame (h : s.Inner a sections) (ha : ∀ b, a.inner = some b → b.pass ≠ some m) :
    sections.passes m = s.sections.passes m := by
  cases hb : a.inner with
  | none =>
    unfold State.Inner at h
    rw [hb] at h
    rw [h]
  | some b =>
    obtain ⟨r, hr⟩ := h.section_fires hb
    exact hr.pass_frame (ha b hb)

theorem Loop.Moves.inner_pass {b : Threads.Action} (hm : l.Moves stop n a l') (hb : a.inner = some b) :
    b.pass = some n := by
  cases hm with
  | beginPass | endPass =>
    obtain rfl := Option.some.inj hb
    rfl
  | passSection hp =>
    obtain rfl := Option.some.inj hb
    exact hp
  | _ => cases hb

private theorem Tended.moves (hm : l.Moves stop n a l') (hs : s.Inner a sections)
    (hp : s.sections.passes n = .idle ↔ l ≠ .inPass) : sections.passes n = .idle ↔ l' ≠ .inPass := by
  cases hm with
  | beginPass =>
    have hpass := hs.pass_moves rfl rfl
    simp [hpass.begins.2]
  | passSection hb hne =>
    have hpass := hs.pass_moves rfl hb
    simp [hpass.continues hne]
  | endPass =>
    have hpass := hs.pass_moves rfl rfl
    simp [hpass.ends]
  | testPredicate | relock | testStop =>
    obtain rfl : sections = s.sections := hs
    split <;> simpa using hp
  | lock | block | timeOut | wakeSpuriously | resume | leave =>
    obtain rfl : sections = s.sections := hs
    simpa using hp

theorem Fires.loops_some (h : Fires s a r s') (hl : s.loops m = some l) : ∃ l', s'.loops m = some l' := by
  cases h with
  | @spawn n | @spawnOver n | @loop n =>
    by_cases hm : m = n
    · subst hm
      exact ⟨_, State.setLoop_loops_self⟩
    · exact ⟨l, (State.setLoop_loops_ne hm).trans hl⟩
  | notifyAll => exact ⟨_, congrArg (Option.map Loop.notified) hl⟩
  | _ => exact ⟨l, hl⟩

private theorem Tended.thread_step (h : Fires s a r s') (ht : Tended s) (n : Nat)
    (hn : s'.backgroundThread = some n) : ∃ l, s'.loops n = some l := by
  have hkeep : s.backgroundThread = some n → ∃ l, s'.loops n = some l := fun hh => by
    obtain ⟨l, hl⟩ := ht.thread n hh
    exact h.loops_some hl
  cases h with
  | spawn =>
    obtain rfl := Option.some.inj hn
    exact ⟨_, State.setLoop_loops_self⟩
  | join => cases hn
  | _ => exact hkeep hn

private theorem Tended.pass_step (h : Fires s a r s') (ht : Tended s) (m : Nat) (l' : Loop)
    (hl : s'.loops m = some l') : s'.sections.passes m = .idle ↔ l' ≠ .inPass := by
  cases h with
  | spawn _ _ hp | spawnOver _ _ hp =>
    rcases State.setLoop_cases hl with ⟨rfl, rfl⟩ | ⟨_, hl⟩
    · simpa [State.setLoop] using hp
    · exact ht.pass m l' hl
  | notifyAll =>
    obtain ⟨l₀, hl₀, rfl⟩ := Option.map_eq_some_iff.mp hl
    have hp := ht.pass m l₀ hl₀
    cases l₀ with
    | waiting => simpa [Loop.notified] using hp
    | _ => exact hp
  | loop hn hm _ hs =>
    rcases State.setLoop_cases hl with ⟨rfl, rfl⟩ | ⟨hne, hl⟩
    · exact Tended.moves hm hs (ht.pass _ _ hn)
    · have hframe := hs.pass_frame (m := m) (fun b hb hpass =>
        hne (Option.some.inj (hpass.symm.trans (hm.inner_pass hb))))
      exact hframe ▸ ht.pass m l' hl
  | @other b _ hp hs =>
    have hframe := hs.pass_frame (m := m) (fun c hc hpass => by
      obtain rfl : b = c := Option.some.inj hc
      cases (hp m hpass).symm.trans hl)
    exact hframe ▸ ht.pass m l' hl
  | _ => exact ht.pass m l' hl

theorem Tended.initial : Tended {} where
  thread n h := by cases h
  pass n l h := by cases h

theorem Tended.step (h : Fires s a r s') (ht : Tended s) : Tended s' :=
  ⟨ht.thread_step h, ht.pass_step h⟩

end tended

theorem tended_of_execution {tr : List Event} {s : State} (h : machine.Execution tr s) : Tended s :=
  h.invariant (I := fun _ s => Tended s) .initial (fun _ _ _ ht hd => hd.step (taken_fires ht))

/-- How many steps a thread takes at most before it returns, once a stop is requested
and it no longer waits. -/
def Loop.rank (l : Loop) (p : Threads.Pass) : Nat :=
  match l with
  | .resuming => kNumShards + 9
  | .ready => kNumShards + 8
  | .inPass => 4 + p.remaining
  | .passed | .woken false => 4
  | .testing | .woken true => 3
  | .checking => 2
  | .leaving => 1
  | .finished | .blocking | .waiting => 0

def State.rank (s : State) (n : Nat) : Nat := (s.loops n).elim 0 (fun l => l.rank (s.sections.passes n))

theorem Loop.rank_le (l : Loop) (p : Threads.Pass) : l.rank p ≤ kNumShards + 9 := by
  cases l with
  | inPass =>
    cases p with
    | scanning next =>
      change 4 + (3 + (kNumShards - next)) ≤ kNumShards + 9
      omega
    | _ => simp [rank, Threads.Pass.remaining, kNumShards]
  | woken timedOut => cases timedOut <;> simp [rank, kNumShards]
  | _ => simp [rank, kNumShards]

theorem State.rank_le (s : State) (n : Nat) : s.rank n ≤ kNumShards + 9 := by
  unfold State.rank
  cases s.loops n with
  | none => exact Nat.zero_le _
  | some l => exact l.rank_le _

section rank
variable {s s' : State} {n m : Nat} {l l' : Loop} {a : Action} {r : Option Call} {d : Bool}
  {sections : Threads.State}

/-- Each step of its own brings a thread that was told to stop one step closer. -/
theorem Loop.Moves.rank (hm : l.Moves true n a l') (hs : s.Inner a sections)
    (hp : s.sections.passes n = .idle ↔ l ≠ .inPass) (hl : l ≠ .blocking ∧ l ≠ .waiting) :
    l'.rank (sections.passes n) + 1 = l.rank (s.sections.passes n) := by
  cases hm with
  | beginPass =>
    have hpass := hs.pass_moves rfl rfl
    rw [hpass.begins.2]
    rfl
  | @passSection b hb =>
    have hpass := hs.pass_moves rfl hb
    have hne : b ≠ .runOnce n := by
      rintro rfl
      exact hp.mp hpass.begins.1 rfl
    have hstep := hpass.remaining hne
    simp only [Loop.rank]
    omega
  | endPass =>
    have hpass := hs.pass_moves rfl rfl
    have hstep := hpass.remaining (by simp)
    rw [hpass.ends] at hstep
    simp only [Loop.rank, Threads.Pass.remaining] at hstep ⊢
    omega
  | relock timedOut => cases timedOut <;> rfl
  | block | timeOut | wakeSpuriously => simp at hl
  | lock | testPredicate | testStop | resume | leave => rfl

/-- While the controlling thread waits for the join, threads move and others take
sections, and nothing else happens. -/
theorem Fires.joining (h : Fires s a r s') (hc : s.control = .joining d) (hne : a ≠ .join) :
    (s'.control = .joining d ∧ s'.backgroundThread = s.backgroundThread) ∧
    ((∃ m l l', s.loops m = some l ∧ l.Moves s.stopRequested m a l' ∧ s.Inner a s'.sections ∧
        s'.loops = Function.update s.loops m (some l')) ∨
      ∃ b, a = .other b ∧ (∀ p ∈ b.pass, s.loops p = none) ∧ s.Inner a s'.sections ∧ s'.loops = s.loops) := by
  cases h with
  | @loop m _ l l' _ _ hl hm _ hs => exact ⟨⟨hc, rfl⟩, .inl ⟨m, l, l', hl, hm, hs, rfl⟩⟩
  | @other b _ hp hs => exact ⟨⟨hc, rfl⟩, .inr ⟨b, rfl, hp, hs, rfl⟩⟩
  | joinNobody | join => exact absurd rfl hne
  | startRefused hc' | stopRefused hc' | start hc' | resetStop hc' | setRunning hc' | spawn hc' | spawnOver hc'
  | spawnFails hc' | stop hc' | destruct hc' | destructIdle hc' | requestStop hc' | notifyAll hc' | clearRunning hc'
  | clearRunningLast hc' | dismantle hc' | dismantleJoinable hc' => cases hc.symm.trans hc'

theorem Loop.Moves.loop_eq {stop : Bool} (hm : l.Moves stop n a l') : a.loop = some n := by
  cases hm <;> rfl

theorem Fires.rank_step (h : Fires s a r s') (hc : s.control = .joining d) (hn : s.backgroundThread = some n)
    (hne : a ≠ .join) (hi : Controlled s) (hw : Awake s) (ht : Tended s) :
    s'.rank n + (if a.loop = some n then 1 else 0) = s.rank n := by
  rcases (h.joining hc hne).2 with ⟨m, l, l', hl, hm, hs, heq⟩ | ⟨b, rfl, hp, hs, heq⟩
  · obtain rfl : n = m := Option.some.inj (hn.symm.trans (hi.live m ⟨l, hl, hm.not_finished⟩))
    have hown := hm.loop_eq
    have hstop : s.stopRequested = true := hi.poised_at hc
    rw [hstop] at hm
    have hrank := hm.rank hs (ht.pass n l hl) (hw.rouses_at hc hl)
    simpa [State.rank, heq, hl, hown] using hrank
  · obtain ⟨l, hl⟩ := ht.thread n hn
    have hframe := hs.pass_frame (m := n) (fun c hcb hpass => by
      obtain rfl : b = c := Option.some.inj hcb
      cases (hp n hpass).symm.trans hl)
    simp [State.rank, heq, hl, hframe, Action.loop]

/-- Until it has returned, a thread that is waited for has a next step. -/
theorem own_step_enabled (hc : s.control = .joining d) (hl : s.loops n = some l) (hne : l ≠ .finished)
    (hfree : l.holds = false → s.cvMutex = none) (hw : Awake s) (ht : Tended s)
    (hs : Threads.Scanned s.sections) : ∃ a, a.loop = some n ∧ (s.step a).isSome = true := by
  have hrouse : l ≠ .blocking ∧ l ≠ .waiting := hw.rouses_at hc hl
  have hpass := ht.pass n l hl
  cases l with
  | ready =>
    have hidle : s.sections.passes n = .idle := hpass.mpr (by simp)
    exact ⟨.beginPass n, rfl, by simp [State.step, hc, State.stepLoop, hl, Threads.State.step,
      Threads.State.stepPass, hidle]⟩
  | inPass =>
    obtain ⟨b, hb, -, hstep⟩ := hs.next_section (p := n) (fun he => hpass.mp he rfl)
    by_cases hlast : b = .addStats n
    · subst hlast
      exact ⟨.endPass n, rfl, by simp [State.step, hc, State.stepLoop, hl, hstep]⟩
    · exact ⟨.passSection n b, rfl, by simp [State.step, hc, State.stepLoop, hl, hb, hlast, hstep]⟩
  | passed => exact ⟨.lock n, rfl, by simp [State.step, hc, State.stepLoop, hl, hfree rfl]⟩
  | testing => exact ⟨.testPredicate n, rfl, by simp [State.step, hc, State.stepLoop, hl]⟩
  | blocking => exact absurd rfl hrouse.1
  | waiting => exact absurd rfl hrouse.2
  | woken timedOut => exact ⟨.relock n, rfl, by simp [State.step, hc, State.stepLoop, hl, hfree rfl]⟩
  | checking => exact ⟨.testStop n, rfl, by simp [State.step, hc, State.stepLoop, hl]⟩
  | resuming => exact ⟨.unlock n, rfl, by simp [State.step, hc, State.stepLoop, hl]⟩
  | leaving => exact ⟨.unlock n, rfl, by simp [State.step, hc, State.stepLoop, hl]⟩
  | finished => exact absurd rfl hne

end rank

/-- Nobody keeps a thread that is waited for from `cv_mutex_`. -/
private theorem mutex_free {s : State} {n : Nat} {l : Loop} (hi : Controlled s) (hk : Locked s)
    (hl : s.loops n = some l) (hlive : l ≠ .finished) (hout : l.holds = false) : s.cvMutex = none := by
  cases hx : s.cvMutex with
  | none => rfl
  | some m =>
    obtain ⟨l', hl', hin⟩ := (hk m).mp hx
    have hm : s.backgroundThread = some m := hi.live m ⟨l', hl', by rintro rfl; cases hin⟩
    obtain rfl : n = m := Option.some.inj ((hi.live n ⟨l, hl, hlive⟩).symm.trans hm)
    obtain rfl : l = l' := Option.some.inj (hl.symm.trans hl')
    cases hout.symm.trans hin

section joining
variable {tr : List Event} {s : State} {d : Bool}

/-- A `StopBackground` that waits for its thread never sleeps out the interval. -/
theorem joining_not_waiting (h : machine.Execution tr s) (hc : s.control = .joining d) (n : Nat) :
    s.loops n ≠ some .waiting := fun hl => ((awake_of_execution h).rouses_at hc hl).2 rfl

/-- It never waits in vain: the join is possible, or a step of the thread it waits for. -/
theorem joining_enabled (h : machine.Execution tr s) (hc : s.control = .joining d) :
    ∃ a, (a = .join ∨ ∃ n, s.backgroundThread = some n ∧ a.loop = some n) ∧ (s.step a).isSome = true := by
  have hi := controlled_of_execution h
  cases hn : s.backgroundThread with
  | none => exact ⟨.join, .inl rfl, by simp [State.step, State.stepControl, hc, hn]⟩
  | some n =>
    obtain ⟨l, hl⟩ := (tended_of_execution h).thread n hn
    by_cases hdone : l = .finished
    · subst hdone
      exact ⟨.join, .inl rfl, by simp [State.step, State.stepControl, hc, hn, hl]⟩
    · obtain ⟨a, ha, hstep⟩ := own_step_enabled hc hl hdone (mutex_free hi (locked_of_execution h) hl hdone)
        (awake_of_execution h) (tended_of_execution h) (Threads.scanned_of_execution (sections_of_execution h))
      exact ⟨a, .inr ⟨n, rfl, ha⟩, hstep⟩

private theorem rank_run (h : machine.Execution tr s) (hc : s.control = .joining d) {n : Nat}
    (hn : s.backgroundThread = some n) {post : List Event} {s' : State} (hp : machine.Path s post s')
    (hno : ∀ t ∈ post, t.label ≠ .join) :
    (s'.control = .joining d ∧ s'.backgroundThread = some n) ∧
      s'.rank n + post.countP (fun t => t.label.loop = some n) = s.rank n := by
  refine hp.admitted (I := fun post s' => (s'.control = .joining d ∧ s'.backgroundThread = some n) ∧
    s'.rank n + post.countP (fun t => t.label.loop = some n) = s.rank n) hno ⟨⟨hc, hn⟩, by simp⟩ ?_
  rintro post t hpost ht hne ⟨⟨hc', hn'⟩, hrank⟩
  have hreach := h.append hpost
  have hfires := taken_fires ht
  obtain ⟨⟨hc'', hn''⟩, _⟩ := hfires.joining hc' hne
  have hstep := hfires.rank_step hc' hn' hne (controlled_of_execution hreach) (awake_of_execution hreach)
    (tended_of_execution hreach)
  refine ⟨⟨hc'', hn''.trans hn'⟩, ?_⟩
  simp only [List.countP_append, List.countP_singleton, decide_eq_true_eq]
  omega

/-- The thread takes a bounded number of steps before it is joined, however others
interleave with it. -/
theorem joining_bounded (h : machine.Execution tr s) (hc : s.control = .joining d) {n : Nat}
    (hn : s.backgroundThread = some n) {post : List Event} {s' : State} (hp : machine.Path s post s')
    (hno : ∀ t ∈ post, t.label ≠ .join) : post.countP (fun t => t.label.loop = some n) ≤ kNumShards + 9 := by
  have hrun := (rank_run h hc hn hp hno).2
  have hle := s.rank_le n
  omega

end joining

end MvccLite.Collector
