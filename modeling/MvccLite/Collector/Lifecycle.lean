import MvccLite.Collector.Steps

/-! The life of the background thread, over every interleaving of its controller,
its own steps and everybody else's sections. A thread that is still in its loop is
the one that `background_thread_` can join, and at each point of `StartBackground`
and `StopBackground` that settles whether there is one. -/
namespace MvccLite.Collector
open Library

/-- A thread that has not returned from `BackgroundLoop`. -/
def State.Live (s : State) (n : Nat) : Prop := ∃ l, s.loops n = some l ∧ l ≠ .finished

/-- The thread has found a stop request and leaves `BackgroundLoop`, or has left. -/
def Loop.Left (l : Loop) : Prop := l = .leaving ∨ l = .finished

/-- What each point of the controlling thread's code relies on. -/
def State.Poised (s : State) : Prop :=
  match s.control with
  | .idle => s.backgroundThread ≠ none → s.running = true
  | .resetting => s.backgroundThread = none
  | .marking => s.backgroundThread = none ∧ s.stopRequested = false
  | .spawning => s.backgroundThread = none ∧ s.stopRequested = false ∧ s.running = true
  | .requesting _ => True
  | .notifying _ | .joining _ => s.stopRequested = true
  | .clearing _ | .dismantling | .destroyed => s.backgroundThread = none
  | .terminated => False

section live
variable {s s' : State} {n m : Nat} {l l' : Loop} {a : Action} {r : Option Call}

theorem State.setLoop_cases (h : (s.setLoop n l).loops m = some l') :
    m = n ∧ l' = l ∨ m ≠ n ∧ s.loops m = some l' := by
  by_cases hm : m = n
  · subst hm
    rw [State.setLoop_loops_self] at h
    exact .inl ⟨rfl, (Option.some.inj h).symm⟩
  · rw [State.setLoop_loops_ne hm] at h
    exact .inr ⟨hm, h⟩

theorem Loop.Moves.not_finished {stop : Bool} (h : l.Moves stop n a l') : l ≠ .finished := by
  cases h <;> simp

theorem Loop.notified_eq_finished : l.notified = .finished ↔ l = .finished := by
  cases l <;> simp [notified]

theorem Loop.left_notified : l.notified.Left ↔ l.Left := by
  cases l <;> simp [notified, Left]

/-- Threads come to live only by being started. -/
theorem Fires.live_of (h : Fires s a r s') (hlive : s'.Live m) : s.Live m ∨ a = .spawn m := by
  cases h with
  | spawn | spawnOver =>
    obtain ⟨l, hl, hne⟩ := hlive
    rcases State.setLoop_cases hl with ⟨rfl, _⟩ | ⟨_, hl⟩
    · exact .inr rfl
    · exact .inl ⟨l, hl, hne⟩
  | notifyAll =>
    obtain ⟨l, hl, hne⟩ := hlive
    obtain ⟨l₀, hl₀, rfl⟩ := Option.map_eq_some_iff.mp hl
    exact .inl ⟨l₀, hl₀, fun he => hne (Loop.notified_eq_finished.mpr he)⟩
  | loop hl hm =>
    obtain ⟨l, hl', hne⟩ := hlive
    rcases State.setLoop_cases hl' with ⟨rfl, _⟩ | ⟨_, hl'⟩
    · exact .inl ⟨_, hl, hm.not_finished⟩
    · exact .inl ⟨l, hl', hne⟩
  | _ => exact .inl hlive

end live

/-- Only the thread that can be joined is live. -/
structure Controlled (s : State) : Prop where
  poised : s.Poised
  live : ∀ n, s.Live n → s.backgroundThread = some n

namespace Controlled
variable {s s' : State} {a : Action} {r : Option Call}

theorem initial : Controlled {} where
  poised h := absurd rfl h
  live n h := by
    obtain ⟨l, hl, _⟩ := h
    cases hl

theorem no_live (hi : Controlled s) (h : s.backgroundThread = none) (n : Nat) : ¬ s.Live n := by
  intro hlive
  rw [hi.live n hlive] at h
  cases h

theorem poised_at (hi : Controlled s) {c : Control} (hc : s.control = c) : { s with control := c }.Poised := by
  subst hc
  exact hi.poised

/-- `running_` is false only when nothing can be joined. -/
private theorem nobody (hi : Controlled s) (hc : s.control = .idle) (hr : s.running = false) :
    s.backgroundThread = none := by
  by_contra hh
  have hrun := hi.poised_at hc hh
  change s.running = true at hrun
  rw [hr] at hrun
  cases hrun

private theorem poised_step (h : Fires s a r s') (hi : Controlled s) : s'.Poised := by
  cases h with
  | startRefused | stopRefused | loop | other => exact hi.poised
  | start hc hr => exact hi.nobody hc hr
  | resetStop hc => exact ⟨hi.poised_at hc, rfl⟩
  | setRunning hc => exact ⟨(hi.poised_at hc).1, (hi.poised_at hc).2, rfl⟩
  | spawn hc => exact fun _ => (hi.poised_at hc).2.2
  | spawnOver hc hn hp hh => exact absurd (hi.poised_at hc).1 hh
  | spawnFails hc => exact fun hh => absurd (hi.poised_at hc).1 hh
  | stop | destruct => exact trivial
  | destructIdle hc hr => exact hi.nobody hc hr
  | requestStop => rfl
  | notifyAll hc => exact hi.poised_at hc
  | joinNobody hc hh => exact hh
  | join => rfl
  | clearRunning hc => exact fun hh => absurd (hi.poised_at hc) hh
  | clearRunningLast hc => exact hi.poised_at hc
  | dismantle hc hh => exact hh
  | dismantleJoinable hc hh => exact absurd (hi.poised_at hc) hh

private theorem live_step (h : Fires s a r s') (hi : Controlled s) (n : Nat) (hlive : s'.Live n) :
    s'.backgroundThread = some n := by
  have hfrom := h.live_of hlive
  cases h with
  | spawn hc hn hp hh =>
    rcases hfrom with hlive | he
    · exact absurd hlive (hi.no_live hh n)
    · obtain rfl := Action.spawn.inj he
      rfl
  | spawnOver hc hn hp hh => exact absurd (hi.poised_at hc).1 hh
  | @join d m hc hh hl =>
    obtain ⟨l, hl', hne⟩ := hlive
    have hm : s.backgroundThread = some n := hi.live n ⟨l, hl', hne⟩
    obtain rfl : m = n := Option.some.inj (hh.symm.trans hm)
    exact absurd (Option.some.inj (hl'.symm.trans hl)) hne
  | loop hl hm =>
    rcases hfrom with hlive | he
    · exact hi.live n hlive
    · subst he
      cases hm
  | _ =>
    rcases hfrom with hlive | he
    · exact hi.live n hlive
    · cases he

theorem step (h : Fires s a r s') (hi : Controlled s) : Controlled s' :=
  ⟨hi.poised_step h, hi.live_step h⟩

end Controlled

theorem controlled_of_execution {tr : List Event} {s : State} (h : machine.Execution tr s) : Controlled s :=
  h.invariant (I := fun _ s => Controlled s) .initial (fun _ _ _ ht hi => hi.step (taken_fires ht))

/-- After the thread was started, the controller has asked it to stop. -/
def Asked (tr : List Event) (n : Nat) : Prop :=
  ∃ before ts mid tq after, tr = before ++ ts :: (mid ++ tq :: after) ∧ ts.label = .spawn n ∧
    tq.label = .requestStop

theorem Asked.concat {tr : List Event} {n : Nat} (h : Asked tr n) (t : Event) : Asked (tr ++ [t]) n := by
  obtain ⟨before, ts, mid, tq, after, rfl, hs, hq⟩ := h
  exact ⟨before, ts, mid, tq, after ++ [t], by simp, hs, hq⟩

theorem asked_now {tr : List Event} {t : Event} {n : Nat} (h : Occurs tr (.spawn n))
    (hl : t.label = .requestStop) : Asked (tr ++ [t]) n := by
  obtain ⟨ts, hts, hs⟩ := h
  obtain ⟨before, mid, rfl⟩ := List.append_of_mem hts
  exact ⟨before, ts, mid, t, [], by simp, hs, hl⟩

/-- What the run so far has to say about stop requests. -/
structure Requested (tr : List Event) (s : State) : Prop where
  spawned : ∀ n, s.backgroundThread = some n → Occurs tr (.spawn n)
  asked : ∀ n, s.backgroundThread = some n → s.stopRequested = true → Asked tr n
  left : ∀ n l, s.loops n = some l → l.Left → Asked tr n

namespace Requested
variable {tr : List Event} {s s' : State} {a : Action} {r : Option Call}

theorem initial : Requested [] {} where
  spawned n h := by cases h
  asked n h := by cases h
  left n l h := by cases h

/-- A step that starts no thread and requests no stop; a loop that it lets leave was
asked to stop before. -/
private theorem keep (hq : Requested tr s) (t : Event)
    (hh : ∀ n, s'.backgroundThread = some n → s.backgroundThread = some n)
    (hstop : s'.stopRequested = true → s.stopRequested = true)
    (hleft : ∀ n l, s'.loops n = some l → l.Left → Asked tr n) : Requested (tr ++ [t]) s' where
  spawned n h := occurs_concat.mpr (.inl (hq.spawned n (hh n h)))
  asked n h hs := (hq.asked n (hh n h) (hstop hs)).concat t
  left n l h hl := (hleft n l h hl).concat t

/-- A loop leaves only when it is asked to, as the thread that can be joined. -/
private theorem leaves (hq : Requested tr s) (hi : Controlled s) {n : Nat} {l l' : Loop} (hl : s.loops n = some l)
    (hm : l.Moves s.stopRequested n a l') (hleft : l'.Left) : Asked tr n := by
  have hlive : s.backgroundThread = some n := hi.live n ⟨l, hl, hm.not_finished⟩
  cases hm with
  | testStop =>
    by_cases hs : s.stopRequested = true
    · exact hq.asked n hlive hs
    · simp [hs, Loop.Left] at hleft
  | leave => exact hq.left n _ hl (.inl rfl)
  | testPredicate => split at hleft <;> simp [Loop.Left] at hleft
  | relock timedOut => cases timedOut <;> simp [Loop.Left] at hleft
  | beginPass | passSection | endPass | lock | block | timeOut | wakeSpuriously | resume =>
    simp [Loop.Left] at hleft

theorem step (h : Fires s a r s') (hi : Controlled s) (hq : Requested tr s) :
    Requested (tr ++ [⟨s, a, r, s'⟩]) s' := by
  cases h with
  | startRefused | start | setRunning | spawnFails | stopRefused | stop | destruct | destructIdle | joinNobody
  | clearRunning | clearRunningLast | dismantle | dismantleJoinable | other =>
    exact hq.keep _ (fun _ hh => hh) (fun hs => hs) hq.left
  | resetStop => exact hq.keep _ (fun _ hh => hh) (fun hs => by cases hs) hq.left
  | join => exact hq.keep _ (fun _ hh => by cases hh) (fun hs => hs) hq.left
  | notifyAll hc =>
    refine hq.keep _ (fun _ hh => hh) (fun hs => hs) (fun n l h hl => ?_)
    obtain ⟨l₀, h₀, rfl⟩ := Option.map_eq_some_iff.mp h
    exact hq.left n l₀ h₀ (Loop.left_notified.mp hl)
  | requestStop hc hm =>
    refine ⟨fun n hh => occurs_concat.mpr (.inl (hq.spawned n hh)), fun n hh _ => ?_, fun n l h hl => ?_⟩
    · exact asked_now (hq.spawned n hh) rfl
    · exact (hq.left n l h hl).concat _
  | @spawn n hc hn hp hh =>
    refine ⟨fun m hm => ?_, fun m _ hs => ?_, fun m l h hl => ?_⟩
    · obtain rfl := Option.some.inj hm
      exact occurs_concat.mpr (.inr rfl)
    · exact absurd hs (Bool.not_eq_true _ ▸ (hi.poised_at hc).2.1)
    · rcases State.setLoop_cases h with ⟨rfl, rfl⟩ | ⟨_, h⟩
      · simp [Loop.Left] at hl
      · exact (hq.left m l h hl).concat _
  | spawnOver hc hn hp hh => exact absurd (hi.poised_at hc).1 hh
  | loop hl hm =>
    refine hq.keep _ (fun _ hh => hh) (fun hs => hs) (fun m l h hleft => ?_)
    rcases State.setLoop_cases h with ⟨rfl, rfl⟩ | ⟨_, h⟩
    · exact hq.leaves hi hl hm hleft
    · exact hq.left m l h hleft

end Requested

theorem requested_of_execution {tr : List Event} {s : State} (h : machine.Execution tr s) : Requested tr s :=
  h.invariant (I := fun tr s => Requested tr s) .initial
    (fun _ _ hp ht hq => hq.step (taken_fires ht) (controlled_of_execution hp))

/-- A background pass begins with this step. -/
def beginsPass (t : Event) : Bool :=
  match t.label with
  | .beginPass _ => true
  | _ => false

theorem beginsPass_iff {t : Event} : beginsPass t = true ↔ ∃ n, t.label = .beginPass n := by
  unfold beginsPass
  split <;> simp_all

/-- The thread will begin a pass before it looks at `stop_requested_`. -/
def Loop.Eager (l : Loop) : Prop := l = .ready ∨ l = .resuming

def State.Eager (s : State) (n : Nat) : Prop := ∃ l, s.loops n = some l ∧ l.Eager

section eager
variable {s s' : State} {n : Nat} {l l' : Loop} {a : Action} {r : Option Call}

theorem State.Eager.live (h : s.Eager n) : s.Live n := by
  obtain ⟨l, hl, rfl | rfl⟩ := h
  · exact ⟨_, hl, by simp⟩
  · exact ⟨_, hl, by simp⟩

theorem Loop.eager_notified : l.notified.Eager ↔ l.Eager := by
  cases l <;> simp [notified, Eager]

/-- While a stop is requested a loop has to be eager to become so. -/
theorem Loop.Moves.eager_of (h : l.Moves true n a l') (he : l'.Eager) : l.Eager := by
  cases h with
  | resume => exact .inr rfl
  | relock timedOut => cases timedOut <;> simp [Loop.Eager] at he
  | beginPass | passSection | endPass | lock | testPredicate | block | timeOut | wakeSpuriously | testStop | leave =>
    simp [Loop.Eager] at he

theorem Fires.beginPass_loops (h : Fires s (.beginPass n) r s') :
    s.loops n = some .ready ∧ s'.loops n = some .inPass := by
  cases h with
  | loop hl hm =>
    cases hm with
    | beginPass => exact ⟨hl, State.setLoop_loops_self⟩

end eager

/-- Once a stop is requested, and until another thread is started: whoever is live
will find the request, and no more than one pass has begun or will begin. -/
structure Winding (count : Nat) (s : State) : Prop where
  stop : ∀ n, s.Live n → s.stopRequested = true
  count : count = 0 ∨ count = 1 ∧ ∀ n, ¬ s.Eager n

namespace Winding
variable {count : Nat} {s s' : State} {a : Action} {r : Option Call}

private theorem eager_of (h : Fires s a r s') (hne : ∀ n, a ≠ .spawn n) (hw : Winding count s) {n : Nat}
    (he : s'.Eager n) : s.Eager n := by
  cases h with
  | @spawn m | @spawnOver m => exact absurd rfl (hne m)
  | notifyAll =>
    obtain ⟨l, hl, he⟩ := he
    obtain ⟨l₀, hl₀, rfl⟩ := Option.map_eq_some_iff.mp hl
    exact ⟨l₀, hl₀, Loop.eager_notified.mp he⟩
  | loop hl hm =>
    obtain ⟨l, hl', he⟩ := he
    rcases State.setLoop_cases hl' with ⟨rfl, rfl⟩ | ⟨_, hl'⟩
    · rw [hw.stop _ ⟨_, hl, hm.not_finished⟩] at hm
      exact ⟨_, hl, hm.eager_of he⟩
    · exact ⟨l, hl', he⟩
  | _ => exact he

private theorem stop_step (h : Fires s a r s') (hne : ∀ n, a ≠ .spawn n) (hi : Controlled s) (hw : Winding count s)
    (n : Nat) (hlive : s'.Live n) : s'.stopRequested = true := by
  have hfrom : s.Live n := (h.live_of hlive).resolve_right (hne n)
  cases h with
  | resetStop hc => exact absurd hfrom (hi.no_live (hi.poised_at hc) n)
  | requestStop => rfl
  | _ => exact hw.stop n hfrom

/-- The pass that begins is that of the only live thread. -/
private theorem begins {n : Nat} (h : Fires s (.beginPass n) r s') (hi : Controlled s) (hw : Winding count s) :
    count = 0 ∧ ∀ m, ¬ s'.Eager m := by
  obtain ⟨hready, hpass⟩ := h.beginPass_loops
  have heager : s.Eager n := ⟨_, hready, .inl rfl⟩
  refine ⟨hw.count.resolve_right (fun hc => hc.2 n heager), fun m he => ?_⟩
  have hm : s.backgroundThread = some m := hi.live m (hw.eager_of h (by simp) he).live
  obtain rfl : n = m := Option.some.inj ((hi.live n heager.live).symm.trans hm)
  obtain ⟨l, hl, he⟩ := he
  obtain rfl : l = .inPass := Option.some.inj (hl.symm.trans hpass)
  simp [Loop.Eager] at he

theorem step {t : Event} (h : Fires t.source t.label t.output t.target) (hne : ∀ n, t.label ≠ .spawn n)
    (hi : Controlled t.source) {tr : List Event} (hw : Winding (tr.countP beginsPass) t.source) :
    Winding ((tr ++ [t]).countP beginsPass) t.target := by
  refine ⟨hw.stop_step h hne hi, ?_⟩
  rw [List.countP_append, List.countP_singleton]
  by_cases hb : beginsPass t = true
  · obtain ⟨n, hn⟩ := beginsPass_iff.mp hb
    rw [hn] at h
    obtain ⟨hzero, hnone⟩ := hw.begins h hi
    exact .inr ⟨by simp [hzero, hb], hnone⟩
  · refine hw.count.imp (fun hc => by simp [hc, hb]) (fun hc => ⟨by simp [hc.1, hb], fun n he => ?_⟩)
    exact hc.2 n (hw.eager_of h hne he)

end Winding

/-- Once a stop is requested at most one more pass begins before another thread is started. -/
theorem countP_beginsPass_le {s s' : State} {tr : List Event} (hp : machine.Path s tr s') (hi : Controlled s)
    (hstop : s.stopRequested = true) (hno : ∀ t ∈ tr, ∀ n, t.label ≠ .spawn n) : tr.countP beginsPass ≤ 1 := by
  have h : Controlled s' ∧ Winding (tr.countP beginsPass) s' :=
    hp.admitted (I := fun tr s => Controlled s ∧ Winding (tr.countP beginsPass) s) hno
      ⟨hi, fun _ _ => hstop, .inl rfl⟩
      (fun _ _ _ ht hne hw => ⟨hw.1.step (taken_fires ht), hw.2.step (taken_fires ht) hne hw.1⟩)
  rcases h.2.count with hc | hc
  · omega
  · omega

/-- Without a live thread no pass begins before one is started. -/
theorem beginsPass_eq_false {s s' : State} {tr : List Event} (hp : machine.Path s tr s') (hnone : ∀ n, ¬ s.Live n)
    (hno : ∀ t ∈ tr, ∀ n, t.label ≠ .spawn n) : ∀ t ∈ tr, beginsPass t = false := by
  intro t ht
  obtain ⟨pre, post, rfl, hpre, htaken, _⟩ := hp.of_mem ht
  have hdead : ∀ n, ¬ t.source.Live n :=
    hpre.admitted (I := fun _ s => ∀ n, ¬ s.Live n) (fun u hu => hno u (by simp [hu])) hnone
      (fun _ _ _ hu hne hd n hlive => hd n (((taken_fires hu).live_of hlive).resolve_right (hne n)))
  by_contra hb
  obtain ⟨n, hn⟩ := beginsPass_iff.mp (Bool.not_eq_false _ ▸ hb)
  have hfires := taken_fires htaken
  rw [hn] at hfires
  exact hdead n ⟨_, hfires.beginPass_loops.1, by simp⟩

/-- The controlling thread is inside a `StartBackground` that has a thread to start. -/
def State.Starting (s : State) : Prop :=
  s.control = .resetting ∨ s.control = .marking ∨ s.control = .spawning

section returns
variable {s s' : State} {a : Action} {r : Option Call}

theorem Fires.starting_of (h : Fires s a r s') (hs : s'.Starting) : s.Starting ∨ a = .startBackground := by
  cases h with
  | start => exact .inr rfl
  | resetStop hc => exact .inl (.inl hc)
  | setRunning hc => exact .inl (.inr (.inl hc))
  | startRefused | stopRefused | loop | other => exact .inl hs
  | spawn | spawnOver | spawnFails | stop | destruct | destructIdle | requestStop | notifyAll | joinNobody | join
  | clearRunning | clearRunningLast | dismantle | dismantleJoinable => simp [State.Starting, State.setLoop] at hs

theorem Fires.spawn_control {n : Nat} (h : Fires s (.spawn n) r s') : s.control = .spawning := by
  cases h with
  | spawn hc | spawnOver hc => exact hc
  | loop _ hm => cases hm

theorem Fires.requestStop_stop (h : Fires s .requestStop r s') : s'.stopRequested = true := by
  cases h with
  | requestStop => rfl
  | loop _ hm => cases hm

/-- `StopBackground` and the destructor return with nothing left to join. -/
theorem Fires.stopped (h : Fires s a r s') (hi : Controlled s)
    (hr : r = some .stopBackground ∨ r = some .destruct) : s'.backgroundThread = none ∧ ¬ s'.Starting := by
  cases h with
  | stopRefused hc hrun => exact ⟨hi.nobody hc hrun, by simp [State.Starting, hc]⟩
  | clearRunning hc => exact ⟨hi.poised_at hc, by simp [State.Starting]⟩
  | dismantle hc hh => exact ⟨hh, by simp [State.Starting]⟩
  | _ => simp at hr

end returns

/-- Only `StartBackground` starts threads. -/
theorem spawn_after_startBackground {s s' : State} {tr : List Event} (hp : machine.Path s tr s')
    (hs : ¬ s.Starting) (hno : ∀ t ∈ tr, t.label ≠ .startBackground) : ∀ t ∈ tr, ∀ n, t.label ≠ .spawn n := by
  intro t ht n hn
  obtain ⟨pre, post, rfl, hpre, htaken, _⟩ := hp.of_mem ht
  have hidle : ¬ t.source.Starting :=
    hpre.admitted (I := fun _ s => ¬ s.Starting) (fun u hu => hno u (by simp [hu])) hs
      (fun _ _ _ hu hne hs' hstart => hs' (((taken_fires hu).starting_of hstart).resolve_right hne))
  have hfires := taken_fires htaken
  rw [hn] at hfires
  exact hidle (.inr (.inr hfires.spawn_control))

/-- Once `StopBackground` or the destructor has returned, no pass begins before the
next `StartBackground`. -/
theorem no_pass_after_stop {pre post : List Event} {t : Event} {s : State} (h : machine.Execution pre t.source)
    (ht : machine.Taken t) (hr : t.output = some .stopBackground ∨ t.output = some .destruct)
    (hp : machine.Path t.target post s) (hno : ∀ u ∈ post, u.label ≠ .startBackground) :
    ∀ u ∈ post, beginsPass u = false := by
  have hi := controlled_of_execution h
  obtain ⟨hnobody, hidle⟩ := (taken_fires ht).stopped hi hr
  exact beginsPass_eq_false hp ((hi.step (taken_fires ht)).no_live hnobody)
    (spawn_after_startBackground hp hidle hno)

/-- The life of the background collector, in every interleaving of its controller's
calls with its own steps and everybody else's sections. -/
theorem background_lifecycle {tr : List Event} {s : State} (h : machine.Execution tr s) :
    (s.control ≠ .terminated ∧ (∀ t ∈ tr, ∀ n, t.label = .spawn n → t.source.backgroundThread = none) ∧
      ∀ n m, s.Live n → s.Live m → n = m) ∧
    (∀ pre t mid post, tr = pre ++ t :: (mid ++ post) → t.label = .requestStop →
      (∀ u ∈ mid, ∀ n, u.label ≠ .spawn n) → mid.countP beginsPass ≤ 1) ∧
    (∀ pre t mid post, tr = pre ++ t :: (mid ++ post) →
      t.output = some .stopBackground ∨ t.output = some .destruct →
      (∀ u ∈ mid, u.label ≠ .startBackground) → ∀ u ∈ mid, beginsPass u = false) ∧
    (∀ n l, s.loops n = some l → l.Left → Asked tr n) ∧
    (s.control = .destroyed → ∀ n, ¬ s.Live n) := by
  have hi := controlled_of_execution h
  refine ⟨⟨fun hc => hi.poised_at hc, fun t ht n hn => ?_, fun n m hn hm => ?_⟩, ?_, ?_,
    (requested_of_execution h).left, fun hc => hi.no_live (hi.poised_at hc)⟩
  · obtain ⟨pre, _, rfl, hpre, htaken, _⟩ := h.of_mem ht
    have hfires := taken_fires htaken
    rw [hn] at hfires
    exact ((controlled_of_execution hpre).poised_at hfires.spawn_control).1
  · exact Option.some.inj ((hi.live n hn).symm.trans (hi.live m hm))
  · rintro pre t mid post rfl hl hno
    obtain ⟨hpre, htaken, hrest⟩ := h.around
    obtain ⟨_, hmid, _⟩ := hrest.split
    have hfires := taken_fires htaken
    have hi := (controlled_of_execution hpre).step hfires
    rw [hl] at hfires
    exact countP_beginsPass_le hmid hi hfires.requestStop_stop hno
  · rintro pre t mid post rfl hr hno
    obtain ⟨hpre, htaken, hrest⟩ := h.around
    obtain ⟨_, hmid, _⟩ := hrest.split
    exact no_pass_after_stop hpre htaken hr hmid hno

/-- One round of a loop up to `wait_for`. -/
private def passRound (n : Nat) : List Action :=
  [[.beginPass n], List.replicate 16 (.passSection n (.visitShard n)),
    [.passSection n (.finishScan n), .passSection n (.collectGarbage n), .endPass n, .lock n,
      .testPredicate n]].flatten

/-- A collector that is stopped at the top of its loop, started again, and destroyed
while it waits. -/
private def restarted : List Action :=
  [[.startBackground, .resetStop, .setRunning, .spawn 0], passRound 0,
    [.block 0, .timeOut 0, .relock 0, .testStop 0, .unlock 0, .stopBackground, .requestStop, .notifyAll],
    passRound 0, [.testStop 0, .unlock 0, .join, .clearRunning],
    [.startBackground, .resetStop, .setRunning, .spawn 1], passRound 1,
    [.block 1, .destruct, .requestStop, .notifyAll, .relock 1, .testPredicate 1, .testStop 1, .unlock 1, .join,
      .clearRunning, .dismantle]].flatten

theorem background_lifecycle_restarted :
    ∃ tr s, machine.Execution tr s ∧ s.control = .destroyed ∧ tr.countP beginsPass = 3 ∧
      s.loops 0 = some .finished ∧ s.loops 1 = some .finished ∧ Asked tr 1 ∧ ∀ n, ¬ s.Live n := by
  have h : machine.Execution (machine.trace restarted) (machine.final restarted) :=
    Machine.scheduled restarted (by decide)
  have hdone : (machine.final restarted).loops 1 = some .finished := by decide
  obtain ⟨_, _, _, hleft, hend⟩ := background_lifecycle h
  exact ⟨_, _, h, by decide, by decide, by decide, hdone, hleft 1 _ hdone (.inr rfl), hend (by decide)⟩

end MvccLite.Collector
