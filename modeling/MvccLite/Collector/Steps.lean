import MvccLite.Collector.System

/-! Everything a step of the collector can do, said once, and its projection to the
sections machine: a run with a background collector is a run of sections. -/
namespace MvccLite.Collector
open Library

/-- The thread holds `cv_mutex_` between its steps. -/
def Loop.holds : Loop → Bool
  | .testing | .blocking | .checking | .resuming | .leaving => true
  | .ready | .inPass | .passed | .waiting | .woken _ | .finished => false

/-- What a step of its own thread does to a loop. -/
inductive Loop.Moves (stop : Bool) (n : Nat) : Action → Loop → Loop → Prop
  | beginPass : Moves stop n (.beginPass n) .ready .inPass
  | passSection {a : Threads.Action} (hp : a.pass = some n) (hne : a ≠ .addStats n) :
      Moves stop n (.passSection n a) .inPass .inPass
  | endPass : Moves stop n (.endPass n) .inPass .passed
  | lock : Moves stop n (.lock n) .passed .testing
  | testPredicate : Moves stop n (.testPredicate n) .testing (if stop then .checking else .blocking)
  | block : Moves stop n (.block n) .blocking .waiting
  | timeOut : Moves stop n (.timeOut n) .waiting (.woken true)
  | wakeSpuriously : Moves stop n (.wakeSpuriously n) .waiting (.woken false)
  | relock (timedOut : Bool) :
      Moves stop n (.relock n) (.woken timedOut) (if timedOut then .checking else .testing)
  | testStop : Moves stop n (.testStop n) .checking (if stop then .leaving else .resuming)
  | resume : Moves stop n (.unlock n) .resuming .ready
  | leave : Moves stop n (.unlock n) .leaving .finished

/-- What becomes of the mutex when loop `n` moves from `l` to `l'`. -/
inductive Loop.Hands (l : Loop) (n : Nat) (before : Option Nat) (l' : Loop) : Option Nat → Prop
  | keeps (h : l.holds = l'.holds) : Hands l n before l' before
  | takes (h : l.holds = false) (h' : l'.holds = true) (hfree : before = none) : Hands l n before l' (some n)
  | gives (h : l.holds = true) (h' : l'.holds = false) : Hands l n before l' none

/-- The section of the store and the registry that a step takes. -/
def Action.inner : Action → Option Threads.Action
  | .beginPass n => some (.runOnce n)
  | .passSection _ a | .other a => some a
  | .endPass n => some (.addStats n)
  | .startBackground | .resetStop | .setRunning | .spawn _ | .spawnFails | .stopBackground | .destruct
  | .requestStop | .notifyAll | .join | .clearRunning | .dismantle | .lock _ | .testPredicate _ | .block _
  | .timeOut _ | .wakeSpuriously _ | .relock _ | .testStop _ | .unlock _ => none

/-- What a step leaves of the sections machine. -/
def State.Inner (s : State) (a : Action) (sections : Threads.State) : Prop :=
  match a.inner with
  | none => sections = s.sections
  | some b => ∃ r, Threads.machine.Taken ⟨s.sections, b, r, sections⟩

inductive Fires (s : State) : Action → Option Call → State → Prop
  | startRefused (hc : s.control = .idle) (hr : s.running = true) :
      Fires s .startBackground (some .startBackground) s
  | start (hc : s.control = .idle) (hr : s.running = false) :
      Fires s .startBackground none { s with control := .resetting }
  | resetStop (hc : s.control = .resetting) (hm : s.cvMutex = none) :
      Fires s .resetStop none { s with stopRequested := false, control := .marking }
  | setRunning (hc : s.control = .marking) :
      Fires s .setRunning none { s with running := true, control := .spawning }
  | spawn {n : Nat} (hc : s.control = .spawning) (hn : s.loops n = none) (hp : s.sections.passes n = .idle)
      (hh : s.backgroundThread = none) :
      Fires s (.spawn n) (some .startBackground)
        ({ s with backgroundThread := some n, control := .idle }.setLoop n .ready)
  | spawnOver {n : Nat} (hc : s.control = .spawning) (hn : s.loops n = none) (hp : s.sections.passes n = .idle)
      (hh : s.backgroundThread ≠ none) :
      Fires s (.spawn n) none ({ s with control := .terminated }.setLoop n .ready)
  | spawnFails (hc : s.control = .spawning) :
      Fires s .spawnFails (some .startBackground) { s with control := .idle }
  | stopRefused (hc : s.control = .idle) (hr : s.running = false) :
      Fires s .stopBackground (some .stopBackground) s
  | stop (hc : s.control = .idle) (hr : s.running = true) :
      Fires s .stopBackground none { s with control := .requesting false }
  | destruct (hc : s.control = .idle) (hr : s.running = true) :
      Fires s .destruct none { s with control := .requesting true }
  | destructIdle (hc : s.control = .idle) (hr : s.running = false) :
      Fires s .destruct none { s with control := .dismantling }
  | requestStop {d : Bool} (hc : s.control = .requesting d) (hm : s.cvMutex = none) :
      Fires s .requestStop none { s with stopRequested := true, control := .notifying d }
  | notifyAll {d : Bool} (hc : s.control = .notifying d) : Fires s .notifyAll none
      { s with loops := fun n => (s.loops n).map Loop.notified, control := .joining d }
  | joinNobody {d : Bool} (hc : s.control = .joining d) (hh : s.backgroundThread = none) :
      Fires s .join none { s with control := .clearing d }
  | join {d : Bool} {n : Nat} (hc : s.control = .joining d) (hh : s.backgroundThread = some n)
      (hl : s.loops n = some .finished) :
      Fires s .join none { s with backgroundThread := none, control := .clearing d }
  | clearRunning (hc : s.control = .clearing false) :
      Fires s .clearRunning (some .stopBackground) { s with running := false, control := .idle }
  | clearRunningLast (hc : s.control = .clearing true) :
      Fires s .clearRunning none { s with running := false, control := .dismantling }
  | dismantle (hc : s.control = .dismantling) (hh : s.backgroundThread = none) :
      Fires s .dismantle (some .destruct) { s with control := .destroyed }
  | dismantleJoinable (hc : s.control = .dismantling) (hh : s.backgroundThread ≠ none) :
      Fires s .dismantle none { s with control := .terminated }
  | loop {n : Nat} {a : Action} {l l' : Loop} {sections : Threads.State} {mutex : Option Nat}
      (hl : s.loops n = some l) (hm : l.Moves s.stopRequested n a l') (hx : l.Hands n s.cvMutex l' mutex)
      (hs : s.Inner a sections) :
      Fires s a none ({ s with sections := sections, cvMutex := mutex }.setLoop n l')
  | other {a : Threads.Action} {sections : Threads.State} (hp : ∀ p ∈ a.pass, s.loops p = none)
      (hs : s.Inner (.other a) sections) :
      Fires s (.other a) none { s with sections := sections }

/-- The loop whose thread takes the step. -/
def Action.loop : Action → Option Nat
  | .beginPass n | .passSection n _ | .endPass n | .lock n | .testPredicate n | .block n | .timeOut n
  | .wakeSpuriously n | .relock n | .testStop n | .unlock n => some n
  | .startBackground | .resetStop | .setRunning | .spawn _ | .spawnFails | .stopBackground | .destruct
  | .requestStop | .notifyAll | .join | .clearRunning | .dismantle | .other _ => none

theorem State.setLoop_self {s : State} {n : Nat} {l : Loop} (h : s.loops n = some l) : s.setLoop n l = s := by
  rw [setLoop, ← h, Function.update_eq_self]

@[simp] theorem State.setLoop_loops_self {s : State} {n : Nat} {l : Loop} : (s.setLoop n l).loops n = some l :=
  Function.update_self ..

theorem State.setLoop_loops_ne {s : State} {n m : Nat} {l : Loop} (h : m ≠ n) :
    (s.setLoop n l).loops m = s.loops m := Function.update_of_ne h ..

private theorem stepLoop_fires {s s' : State} {n : Nat} {a : Action} {r : Option Call} (ha : a.loop = some n)
    (h : s.stepLoop n a = some (s', r)) : Fires s a r s' := by
  unfold State.stepLoop at h
  split at h
  · rename_i hl
    obtain rfl := Option.some.inj ha
    obtain ⟨out, hstep, heq⟩ := Option.map_eq_some_iff.mp h
    obtain ⟨rfl, rfl⟩ := Prod.mk.inj heq
    exact .loop hl .beginPass (.keeps rfl) ⟨_, hstep⟩
  · rename_i b hl
    obtain rfl := Option.some.inj ha
    split at h
    · rename_i hb
      obtain ⟨out, hstep, heq⟩ := Option.map_eq_some_iff.mp h
      obtain ⟨rfl, rfl⟩ := Prod.mk.inj heq
      rw [← State.setLoop_self (s := { s with sections := out.1 }) hl]
      exact .loop hl (.passSection hb.1 hb.2) (.keeps rfl) ⟨_, hstep⟩
    · cases h
  · rename_i hl
    obtain rfl := Option.some.inj ha
    obtain ⟨out, hstep, heq⟩ := Option.map_eq_some_iff.mp h
    obtain ⟨rfl, rfl⟩ := Prod.mk.inj heq
    exact .loop hl .endPass (.keeps rfl) ⟨_, hstep⟩
  · rename_i hl
    obtain rfl := Option.some.inj ha
    split at h
    · rename_i hfree
      obtain ⟨rfl, rfl⟩ := Prod.mk.inj (Option.some.inj h)
      exact .loop hl .lock (.takes rfl rfl hfree) rfl
    · cases h
  · rename_i hl
    obtain rfl := Option.some.inj ha
    obtain ⟨rfl, rfl⟩ := Prod.mk.inj (Option.some.inj h)
    exact .loop hl .testPredicate (.keeps (by split <;> rfl)) rfl
  · rename_i hl
    obtain rfl := Option.some.inj ha
    obtain ⟨rfl, rfl⟩ := Prod.mk.inj (Option.some.inj h)
    exact .loop hl .block (.gives rfl rfl) rfl
  · rename_i hl
    obtain rfl := Option.some.inj ha
    obtain ⟨rfl, rfl⟩ := Prod.mk.inj (Option.some.inj h)
    exact .loop hl .timeOut (.keeps rfl) rfl
  · rename_i hl
    obtain rfl := Option.some.inj ha
    obtain ⟨rfl, rfl⟩ := Prod.mk.inj (Option.some.inj h)
    exact .loop hl .wakeSpuriously (.keeps rfl) rfl
  · rename_i timedOut hl
    obtain rfl := Option.some.inj ha
    split at h
    · rename_i hfree
      obtain ⟨rfl, rfl⟩ := Prod.mk.inj (Option.some.inj h)
      exact .loop hl (.relock timedOut) (.takes rfl (by split <;> rfl) hfree) rfl
    · cases h
  · rename_i hl
    obtain rfl := Option.some.inj ha
    obtain ⟨rfl, rfl⟩ := Prod.mk.inj (Option.some.inj h)
    exact .loop hl .testStop (.keeps (by split <;> rfl)) rfl
  · rename_i hl
    obtain rfl := Option.some.inj ha
    obtain ⟨rfl, rfl⟩ := Prod.mk.inj (Option.some.inj h)
    exact .loop hl .resume (.gives rfl rfl) rfl
  · rename_i hl
    obtain rfl := Option.some.inj ha
    obtain ⟨rfl, rfl⟩ := Prod.mk.inj (Option.some.inj h)
    exact .loop hl .leave (.gives rfl rfl) rfl
  · cases h

private theorem stepControl_fires {s s' : State} {a : Action} {r : Option Call}
    (h : s.stepControl a = some (s', r)) : Fires s a r s' := by
  unfold State.stepControl at h
  split at h
  · rename_i hc
    split at h
    · rename_i hr
      obtain ⟨rfl, rfl⟩ := Prod.mk.inj (Option.some.inj h)
      exact .startRefused hc hr
    · rename_i hr
      obtain ⟨rfl, rfl⟩ := Prod.mk.inj (Option.some.inj h)
      exact .start hc (Bool.not_eq_true _ ▸ hr)
  · rename_i hc
    split at h
    · rename_i hm
      obtain ⟨rfl, rfl⟩ := Prod.mk.inj (Option.some.inj h)
      exact .resetStop hc hm
    · cases h
  · rename_i hc
    obtain ⟨rfl, rfl⟩ := Prod.mk.inj (Option.some.inj h)
    exact .setRunning hc
  · rename_i hc
    split at h
    · rename_i hn
      split at h
      · rename_i hh
        obtain ⟨rfl, rfl⟩ := Prod.mk.inj (Option.some.inj h)
        exact .spawn hc hn.1 hn.2 hh
      · rename_i hh
        obtain ⟨rfl, rfl⟩ := Prod.mk.inj (Option.some.inj h)
        exact .spawnOver hc hn.1 hn.2 hh
    · cases h
  · rename_i hc
    obtain ⟨rfl, rfl⟩ := Prod.mk.inj (Option.some.inj h)
    exact .spawnFails hc
  · rename_i hc
    split at h
    · rename_i hr
      obtain ⟨rfl, rfl⟩ := Prod.mk.inj (Option.some.inj h)
      exact .stop hc hr
    · rename_i hr
      obtain ⟨rfl, rfl⟩ := Prod.mk.inj (Option.some.inj h)
      exact .stopRefused hc (Bool.not_eq_true _ ▸ hr)
  · rename_i hc
    split at h
    · rename_i hr
      obtain ⟨rfl, rfl⟩ := Prod.mk.inj (Option.some.inj h)
      exact .destruct hc hr
    · rename_i hr
      obtain ⟨rfl, rfl⟩ := Prod.mk.inj (Option.some.inj h)
      exact .destructIdle hc (Bool.not_eq_true _ ▸ hr)
  · rename_i hc
    split at h
    · rename_i hm
      obtain ⟨rfl, rfl⟩ := Prod.mk.inj (Option.some.inj h)
      exact .requestStop hc hm
    · cases h
  · rename_i hc
    obtain ⟨rfl, rfl⟩ := Prod.mk.inj (Option.some.inj h)
    exact .notifyAll hc
  · rename_i hc
    split at h
    · rename_i hh
      obtain ⟨rfl, rfl⟩ := Prod.mk.inj (Option.some.inj h)
      exact .joinNobody hc hh
    · rename_i n hh
      split at h
      · rename_i hl
        obtain ⟨rfl, rfl⟩ := Prod.mk.inj (Option.some.inj h)
        exact .join hc hh hl
      · cases h
  · rename_i d hc
    cases d with
    | false =>
      obtain ⟨rfl, rfl⟩ := Prod.mk.inj (Option.some.inj h)
      exact .clearRunning hc
    | true =>
      obtain ⟨rfl, rfl⟩ := Prod.mk.inj (Option.some.inj h)
      exact .clearRunningLast hc
  · rename_i hc
    split at h
    · rename_i hh
      obtain ⟨rfl, rfl⟩ := Prod.mk.inj (Option.some.inj h)
      exact .dismantle hc hh
    · rename_i hh
      obtain ⟨rfl, rfl⟩ := Prod.mk.inj (Option.some.inj h)
      exact .dismantleJoinable hc hh
  · cases h

theorem step_fires {s s' : State} {a : Action} {r : Option Call} (h : s.step a = some (s', r)) :
    Fires s a r s' := by
  unfold State.step at h
  split at h
  · cases h
  · cases a with
    | startBackground | resetStop | setRunning | spawn | spawnFails | stopBackground | destruct | requestStop
    | notifyAll | join | clearRunning | dismantle => exact stepControl_fires h
    | beginPass | passSection | endPass | lock | testPredicate | block | timeOut | wakeSpuriously | relock
    | testStop | unlock => exact stepLoop_fires rfl h
    | other b =>
      change s.stepOther b = some (s', r) at h
      unfold State.stepOther at h
      split at h
      · rename_i hp
        obtain ⟨out, hstep, heq⟩ := Option.map_eq_some_iff.mp h
        obtain ⟨rfl, rfl⟩ := Prod.mk.inj heq
        exact .other hp ⟨_, hstep⟩
      · cases h

theorem taken_fires {t : Event} (h : machine.Taken t) : Fires t.source t.label t.output t.target :=
  step_fires h

/-- The section that a step takes, with what it read and produced. -/
def sectionOf (t : Event) : Option Threads.Event :=
  t.label.inner.bind (fun a =>
    (t.source.sections.step a).map (fun out => ⟨t.source.sections, a, out.2, out.1⟩))

theorem Fires.inner {s s' : State} {a : Action} {r : Option Call} (h : Fires s a r s') : s.Inner a s'.sections := by
  cases h with
  | loop _ _ _ hs => exact hs
  | other _ hs => exact hs
  | _ => rfl

/-- Every run with a background collector is a run of sections. -/
theorem sections_of_execution {tr : List Event} {s : State} (h : machine.Execution tr s) :
    Threads.machine.Execution (tr.filterMap sectionOf) s.sections := by
  refine h.project State.sections sectionOf ?_ ?_
  · intro t u ht hu
    obtain ⟨a, ha, hu⟩ := Option.bind_eq_some_iff.mp hu
    obtain ⟨out, hout, rfl⟩ := Option.map_eq_some_iff.mp hu
    have hin := (taken_fires ht).inner
    rw [State.Inner, ha] at hin
    obtain ⟨r, hr⟩ := hin
    change t.source.sections.step a = some (t.target.sections, r) at hr
    obtain rfl : out = (t.target.sections, r) := Option.some.inj (hout.symm.trans hr)
    exact ⟨hr, rfl, rfl⟩
  · intro t ht hu
    have hin := (taken_fires ht).inner
    unfold State.Inner at hin
    cases ha : t.label.inner with
    | none =>
      rw [ha] at hin
      exact hin
    | some a =>
      rw [ha] at hin
      obtain ⟨r, hr⟩ := hin
      change t.source.sections.step a = some (t.target.sections, r) at hr
      simp [sectionOf, ha, hr] at hu

end MvccLite.Collector
