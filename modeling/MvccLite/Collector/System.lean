import MvccLite.Threads.Frames

/-! The background collector. One thread controls it with `StartBackground`,
`StopBackground` and the destructor; each thread it starts runs `BackgroundLoop`,
whose passes are passes of the sections machine among everybody else's sections. -/
namespace MvccLite.Collector
open Library

/-- Where a thread that runs `BackgroundLoop` stands. -/
inductive Loop where
  /-- at the top of the loop -/
  | ready
  /-- inside `RunOnce` -/
  | inPass
  /-- the pass is done, `cv_mutex_` not yet taken -/
  | passed
  /-- inside `wait_for` with the mutex, about to evaluate the predicate -/
  | testing
  /-- the predicate was false, the mutex is still held -/
  | blocking
  /-- blocked, the mutex released -/
  | waiting
  /-- awake again, about to take the mutex -/
  | woken (timedOut : Bool)
  /-- `wait_for` has returned, `stop_requested_` not yet tested -/
  | checking
  /-- found no stop request, the mutex is still held -/
  | resuming
  /-- found a stop request, the mutex is still held -/
  | leaving
  | finished
  deriving DecidableEq

/-- Where the controlling thread stands. `destroying` tells a `StopBackground` that
the destructor calls from one that returns to a caller. -/
inductive Control where
  | idle
  /-- `StartBackground` found `running_` false -/
  | resetting
  /-- `stop_requested_` is reset, `running_` not yet set -/
  | marking
  /-- `running_` is set, the thread not yet started -/
  | spawning
  /-- `StopBackground` found `running_` true -/
  | requesting (destroying : Bool)
  /-- `stop_requested_` is set, nobody notified yet -/
  | notifying (destroying : Bool)
  | joining (destroying : Bool)
  /-- the thread is joined, `running_` not yet reset -/
  | clearing (destroying : Bool)
  /-- the destructor's `StopBackground` has returned -/
  | dismantling
  | destroyed
  /-- `std::terminate` was called -/
  | terminated
  deriving DecidableEq

/-- `cvMutex` names the loop that holds `cv_mutex_`; the controlling thread holds it
only within a step. `backgroundThread` is the thread that `background_thread_` can join. -/
structure State where
  sections : Threads.State := {}
  running : Bool := false
  stopRequested : Bool := false
  cvMutex : Option Nat := none
  backgroundThread : Option Nat := none
  loops : Nat → Option Loop := fun _ => none
  control : Control := .idle

inductive Action where
  | startBackground
  | resetStop
  | setRunning
  | spawn (n : Nat)
  | spawnFails
  | stopBackground
  | destruct
  | requestStop
  | notifyAll
  | join
  | clearRunning
  | dismantle
  | beginPass (n : Nat)
  | passSection (n : Nat) (a : Threads.Action)
  | endPass (n : Nat)
  | lock (n : Nat)
  | testPredicate (n : Nat)
  | block (n : Nat)
  | timeOut (n : Nat)
  | wakeSpuriously (n : Nat)
  | relock (n : Nat)
  | testStop (n : Nat)
  | unlock (n : Nat)
  | other (a : Threads.Action)
  deriving DecidableEq, Repr

/-- The calls of the controlling thread; a step outputs the call that it ends. -/
inductive Call where
  | startBackground
  | stopBackground
  | destruct
  deriving DecidableEq, Repr

/-- `notify_all` wakes whoever is blocked. -/
def Loop.notified : Loop → Loop
  | .waiting => .woken false
  | l => l

namespace State

def isBackgroundRunning (s : State) : Bool := s.running

def setLoop (s : State) (n : Nat) (l : Loop) : State :=
  { s with loops := Function.update s.loops n (some l) }

/-- The steps of the controlling thread. Starting a thread may fail, and assigning
it over a joinable one, or destroying a joinable one, terminates the program. -/
def stepControl (s : State) (a : Action) : Option (State × Option Call) :=
  match a, s.control with
  | .startBackground, .idle =>
    if s.running then some (s, some .startBackground) else some ({ s with control := .resetting }, none)
  | .resetStop, .resetting =>
    if s.cvMutex = none then some ({ s with stopRequested := false, control := .marking }, none) else none
  | .setRunning, .marking => some ({ s with running := true, control := .spawning }, none)
  | .spawn n, .spawning =>
    if s.loops n = none ∧ s.sections.passes n = .idle then
      if s.backgroundThread = none then
        some ({ s with backgroundThread := some n, control := .idle }.setLoop n .ready, some .startBackground)
      else some ({ s with control := .terminated }.setLoop n .ready, none)
    else none
  | .spawnFails, .spawning => some ({ s with control := .idle }, some .startBackground)
  | .stopBackground, .idle =>
    if s.running then some ({ s with control := .requesting false }, none) else some (s, some .stopBackground)
  | .destruct, .idle =>
    if s.running then some ({ s with control := .requesting true }, none)
    else some ({ s with control := .dismantling }, none)
  | .requestStop, .requesting d =>
    if s.cvMutex = none then some ({ s with stopRequested := true, control := .notifying d }, none) else none
  | .notifyAll, .notifying d =>
    some ({ s with loops := fun n => (s.loops n).map Loop.notified, control := .joining d }, none)
  | .join, .joining d =>
    match s.backgroundThread with
    | none => some ({ s with control := .clearing d }, none)
    | some n =>
      if s.loops n = some .finished then
        some ({ s with backgroundThread := none, control := .clearing d }, none)
      else none
  | .clearRunning, .clearing d =>
    if d then some ({ s with running := false, control := .dismantling }, none)
    else some ({ s with running := false, control := .idle }, some .stopBackground)
  | .dismantle, .dismantling =>
    if s.backgroundThread = none then some ({ s with control := .destroyed }, some .destruct)
    else some ({ s with control := .terminated }, none)
  | _, _ => none

/-- The steps of a thread in `BackgroundLoop`. `wait_for` evaluates its predicate,
blocks while that is false, and gives up once the interval is over. -/
def stepLoop (s : State) (n : Nat) (a : Action) : Option (State × Option Call) :=
  match a, s.loops n with
  | .beginPass _, some .ready =>
    (s.sections.step (.runOnce n)).map (fun out => ({ s with sections := out.1 }.setLoop n .inPass, none))
  | .passSection _ b, some .inPass =>
    if b.pass = some n ∧ b ≠ .addStats n then
      (s.sections.step b).map (fun out => ({ s with sections := out.1 }, none))
    else none
  | .endPass _, some .inPass =>
    (s.sections.step (.addStats n)).map (fun out => ({ s with sections := out.1 }.setLoop n .passed, none))
  | .lock _, some .passed =>
    if s.cvMutex = none then some ({ s with cvMutex := some n }.setLoop n .testing, none) else none
  | .testPredicate _, some .testing =>
    some (s.setLoop n (if s.stopRequested then .checking else .blocking), none)
  | .block _, some .blocking => some ({ s with cvMutex := none }.setLoop n .waiting, none)
  | .timeOut _, some .waiting => some (s.setLoop n (.woken true), none)
  | .wakeSpuriously _, some .waiting => some (s.setLoop n (.woken false), none)
  | .relock _, some (.woken timedOut) =>
    if s.cvMutex = none then
      some ({ s with cvMutex := some n }.setLoop n (if timedOut then .checking else .testing), none)
    else none
  | .testStop _, some .checking =>
    some (s.setLoop n (if s.stopRequested then .leaving else .resuming), none)
  | .unlock _, some .resuming => some ({ s with cvMutex := none }.setLoop n .ready, none)
  | .unlock _, some .leaving => some ({ s with cvMutex := none }.setLoop n .finished, none)
  | _, _ => none

/-- A section of anybody else: a transaction, a direct write, or a pass that is not
one of the loops'. -/
def stepOther (s : State) (a : Threads.Action) : Option (State × Option Call) :=
  if ∀ p ∈ a.pass, s.loops p = none then
    (s.sections.step a).map (fun out => ({ s with sections := out.1 }, none))
  else none

def step (s : State) (a : Action) : Option (State × Option Call) :=
  if s.control = .terminated then none
  else
    match a with
    | .startBackground | .resetStop | .setRunning | .spawn _ | .spawnFails | .stopBackground | .destruct
    | .requestStop | .notifyAll | .join | .clearRunning | .dismantle => s.stepControl a
    | .beginPass n | .passSection n _ | .endPass n | .lock n | .testPredicate n | .block n | .timeOut n
    | .wakeSpuriously n | .relock n | .testStop n | .unlock n => s.stepLoop n a
    | .other b => s.stepOther b

end State

def machine : Machine State Action (Option Call) where
  init := {}
  step := State.step

abbrev Event := Transition State Action (Option Call)

end MvccLite.Collector
