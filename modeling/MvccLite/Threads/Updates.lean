import MvccLite.Threads.Counter
import MvccLite.Threads.Retries

/-! `RunWithRetry` around a body that reads a key and writes back a new value. However often
it is retried, and whatever others do meanwhile, a call that reports OK is one update of the
newest value, made at its one commit. -/
namespace MvccLite.Threads
open Library VersionStore

/-- The calls of the body that these replies answer. -/
def Body.exchanged : Body → List Reply → List (DataCall × Reply)
  | .call c next, r :: rs => (c, r) :: (next r).exchanged rs
  | _, _ => []

section calls
variable {id : Nat} {tr tr' : List Event}

theorem activeCalls_append (id : Nat) (tr tr' : List Event) :
    activeCalls id (tr ++ tr') = activeCalls id tr ++ activeCalls id tr' := List.filterMap_append

private theorem activeCalls_foreign (h : ∀ t ∈ tr, t.label.client ≠ some id) : activeCalls id tr = [] := by
  refine List.filterMap_eq_nil_iff.mpr (fun t ht => activeCall_none (fun c hl => h t ht ?_))
  rw [hl]
  rfl

/-- The transaction has made its last call that did anything. -/
def Closed (id : Nat) (s : State) : Prop :=
  id < s.manager.nextTxnId ∧
    match s.clients id with
    | none | some (.ending _) | some (.destroying _) => True
    | some (.returned txn) => txn.state ≠ .active
    | some .allocated | some .placed | some (.versionRead _) => False

private theorem closed_own {s s' : State} {a : Action} {r : Option Reply} (hf : Fires s a r s') (hi : Registered s)
    (hown : a.client = some id) (h : Closed id s) : Closed id s' ∧ activeCall id ⟨s, a, r, s'⟩ = none := by
  obtain ⟨ph, ph', hc, hc', hm⟩ := hf.moves hown
  obtain ⟨hid, hphase⟩ := h
  rw [hc] at hphase
  have hid' : id < s'.manager.nextTxnId := hid.trans_le hf.nextTxnId_le
  have hsilent (hne : ∀ c, a ≠ .data id c) : activeCall id ⟨s, a, r, s'⟩ = none := activeCall_none hne
  cases hm with
  | placeholder | readVersion | refine => exact hphase.elim
  | @data txn c =>
    refine ⟨⟨hid', ?_⟩, by cases r <;> simp [activeCall, hc, hphase]⟩
    rw [hc']
    exact fun ha => hphase ((txn.exec_fixed s.store c).2.2 ▸ ha)
  | commit _ ha | abort ha | destroy ha => exact absurd ha hphase
  | commitRefused | abortRefused =>
    refine ⟨⟨hid', ?_⟩, hsilent (by simp)⟩
    rw [hc']
    exact hphase
  | destroyFinished | unregisterDestroyed =>
    refine ⟨⟨hid', ?_⟩, hsilent (by simp)⟩
    rw [hc']
    trivial
  | @unregister txn =>
    refine ⟨⟨hid', ?_⟩, hsilent (by simp)⟩
    rw [hc']
    exact hi.settled id txn hc

private theorem closed_step {t : Event} (ht : machine.Taken t) (hi : Registered t.source) (h : Closed id t.source) :
    Closed id t.target ∧ activeCall id t = none := by
  have hf := taken_fires ht
  by_cases hown : t.label.client = some id
  · exact closed_own hf hi hown h
  · refine ⟨⟨h.1.trans_le hf.nextTxnId_le, ?_⟩, activeCall_none (fun c hl => hown (by rw [hl]; rfl))⟩
    rcases hf.client_frame hown with hc | ⟨rfl, _⟩
    · rw [hc]
      exact h.2
    · exact absurd h.1 (lt_irrefl _)

/-- A transaction that is committed makes no further call. -/
theorem activeCalls_until_commit {pre post : List Event} {tc : Event} {s : State} {want : Bool}
    (h : machine.Execution (pre ++ tc :: post) s) (hl : tc.label = .commit id want) :
    activeCalls id (pre ++ tc :: post) = activeCalls id pre := by
  obtain ⟨hpre, htc, hpost⟩ := h.around
  have hclosed : Closed id tc.target := by
    have hf := taken_fires htc
    obtain ⟨ph, ph', hc, hc', hm⟩ := hf.moves (show tc.label.client = some id by rw [hl]; rfl)
    refine ⟨((registered_of_execution hpre).drawn id (by simp [hc])).trans_le hf.nextTxnId_le, ?_⟩
    rw [hl] at hm
    cases hm with
    | commit =>
      rw [hc']
      trivial
    | commitRefused _ ha =>
      rw [hc']
      exact ha
  have hafter : Closed id s ∧ activeCalls id post = [] := by
    refine hpost.invariant (I := fun post s => Closed id s ∧ activeCalls id post = []) ⟨hclosed, rfl⟩ ?_
    rintro tr t htr ht ⟨hopen, hnil⟩
    have hreg := registered_of_execution (hpre.append (.cons htc htr))
    obtain ⟨hnext, hnone⟩ := closed_step ht hreg hopen
    exact ⟨hnext, by rw [activeCalls_concat, hnil, hnone]; rfl⟩
  have hone : activeCall id tc = none := activeCall_none (by simp [hl])
  have hrest : activeCalls id (tc :: post) = activeCalls id post := List.filterMap_cons_none hone
  rw [activeCalls_append, hrest, hafter.2, List.append_nil]

end calls

section cursors
variable {env : Environment} {id : Nat} {c c' : Cursor} {a : Action} {r : Option Reply}

private theorem other_trace (id : Nat) (c : Cursor) (a : Action) :
    ∃ rest, (Cursor.other id c a).trace = c.trace ++ rest ∧ ∀ t ∈ rest, t.label.client ≠ some id := by
  unfold Cursor.other
  split
  · exact ⟨[], by simp, by simp⟩
  · rename_i hne
    split
    · exact ⟨[], by simp, by simp⟩
    · exact ⟨_, rfl, by simpa using hne⟩

private theorem others_trace (id : Nat) (as : List Action) (c : Cursor) :
    ∃ rest, (as.foldl (Cursor.other id) c).trace = c.trace ++ rest ∧ ∀ t ∈ rest, t.label.client ≠ some id := by
  induction as generalizing c with
  | nil => exact ⟨[], by simp, by simp⟩
  | cons a as ih =>
    obtain ⟨rest₁, htr₁, hforeign₁⟩ := other_trace id c a
    obtain ⟨rest, htr, hforeign⟩ := ih (Cursor.other id c a)
    rw [List.foldl_cons, htr, htr₁, List.append_assoc]
    exact ⟨_, rfl, List.forall_mem_append.mpr ⟨hforeign₁, hforeign⟩⟩

private theorem take_trace (h : c.take env id a = some (r, c')) :
    ∃ t rest, c'.trace = c.trace ++ t :: rest ∧ t.label = a ∧ t.output = r ∧ t.source = c.sys ∧
      ∀ u ∈ rest, u.label.client ≠ some id := by
  obtain ⟨out, _, heq⟩ := Option.map_eq_some_iff.mp h
  obtain ⟨rfl, rfl⟩ := Prod.mk.inj heq
  obtain ⟨rest, htr, hforeign⟩ := others_trace id (env c.taken)
    { sys := out.1, taken := c.taken + 1, trace := c.trace ++ [⟨c.sys, a, out.2, out.1⟩] }
  exact ⟨⟨c.sys, a, out.2, out.1⟩, rest, by rw [htr]; simp, rfl, rfl, rfl, hforeign⟩

/-- Sections of the call that are no data calls. -/
private theorem takeAll_calls {as : List Action} (hno : ∀ a ∈ as, ∀ d, a ≠ .data id d)
    (h : c.takeAll env id as = some c') : ∃ tr, c'.trace = c.trace ++ tr ∧ activeCalls id tr = [] := by
  induction as generalizing c with
  | nil =>
    obtain rfl := Option.some.inj h
    exact ⟨[], by simp, rfl⟩
  | cons a as ih =>
    obtain ⟨⟨r, c₁⟩, htake, hrest⟩ := Option.bind_eq_some_iff.mp h
    obtain ⟨t, rest, htr, rfl, _, _, hforeign⟩ := take_trace htake
    obtain ⟨tr, htr', hcalls⟩ := ih (fun b hb => hno b (by simp [hb])) hrest
    refine ⟨t :: rest ++ tr, by rw [htr', htr]; simp, ?_⟩
    have hone : activeCall id t = none := activeCall_none (fun d => hno _ (by simp) d)
    rw [activeCalls_append, hcalls, List.append_nil, activeCalls, List.filterMap_cons_none hone]
    exact activeCalls_foreign hforeign

/-- The calls of the body are those that the run records for its transaction. -/
private theorem run_calls {body : Body} {txn : Transaction} {out : Option Status} {replies : List Reply}
    (hid : id < c.sys.manager.nextTxnId) (hc : c.sys.clients id = some (.returned txn)) (ha : txn.state = .active)
    (h : body.run env id c = some (out, replies, c')) :
    ∃ tr, c'.trace = c.trace ++ tr ∧ activeCalls id tr = body.exchanged replies := by
  induction body generalizing c txn replies with
  | ret st | throws =>
    obtain ⟨_, heq⟩ := Prod.mk.inj (Option.some.inj h)
    obtain ⟨rfl, rfl⟩ := Prod.mk.inj heq
    exact ⟨[], by simp, rfl⟩
  | call d next ih =>
    obtain ⟨c₁, _, htake, _, hid₁, hc₁⟩ := Cursor.take_silent env (.data d hc) hid ⟨rfl, rfl⟩
    rw [State.setClient_self] at hc₁
    rw [Body.run, htake] at h
    obtain ⟨⟨out', replies', c₂⟩, hrun, heq⟩ := Option.map_eq_some_iff.mp h
    simp only [Prod.mk.injEq] at heq
    obtain ⟨rfl, rfl, rfl⟩ := heq
    obtain ⟨t, rest, htr, hl, hout, hsrc, hforeign⟩ := take_trace htake
    obtain ⟨tr, htr', hcalls⟩ := ih _ hid₁ hc₁ ((txn.exec_fixed c.sys.store d).2.2.trans ha) hrun
    have hone : activeCall id t = some (d, (txn.exec c.sys.store d).2) := by
      simp [activeCall, hl, hout, hsrc, hc, ha]
    refine ⟨t :: rest ++ tr, by rw [htr', htr]; simp, ?_⟩
    rw [activeCalls_append, hcalls, activeCalls, List.filterMap_cons_some hone, ← activeCalls,
      activeCalls_foreign hforeign]
    rfl

/-- What an attempt leaves of its body's calls. -/
theorem attempt_calls {body : Body} {a : Attempt} (h : attempt env body c = some (a, c')) :
    ∃ tr, c'.trace = c.trace ++ tr ∧ activeCalls a.txn.txnId tr = body.exchanged a.replies ∧
      a.txn.txnId = c.sys.manager.nextTxnId := by
  obtain ⟨c₁, _, _, _, hbegin, _, _, hid₁, hc₁⟩ := begin_spec env c rfl
  obtain ⟨out, replies, c₂, _, txn, hrun, _, _, hc₂, _, htxn, _⟩ := run_spec env body hid₁ hc₁ rfl
  have hobj : c₂.sys.object c.sys.manager.nextTxnId = some txn := by simp [State.object, hc₂, Phase.object]
  obtain ⟨tr₁, htr₁, hcalls₁⟩ := takeAll_calls (by simp [beginSections]) hbegin
  obtain ⟨tr₂, htr₂, hcalls₂⟩ := run_calls hid₁ hc₁ rfl hrun
  have hrest (c₃ : Cursor) (tr₃ : List Event) (htr₃ : c₃.trace = c₂.trace ++ tr₃)
      (hcalls₃ : activeCalls c.sys.manager.nextTxnId tr₃ = []) :
      ∃ tr, c₃.trace = c.trace ++ tr ∧ activeCalls txn.txnId tr = body.exchanged replies ∧
        txn.txnId = c.sys.manager.nextTxnId := by
    refine ⟨tr₁ ++ tr₂ ++ tr₃, by rw [htr₃, htr₂, htr₁]; simp, ?_, htxn⟩
    rw [htxn, activeCalls_append, activeCalls_append, hcalls₁, hcalls₂, hcalls₃]
    simp
  simp only [attempt, hbegin, hrun, hobj, Option.bind_eq_bind, Option.bind_some] at h
  cases out with
  | none =>
    obtain ⟨c₃, hclose, heq⟩ := Option.bind_eq_some_iff.mp h
    obtain ⟨rfl, rfl⟩ := Prod.mk.inj (Option.some.inj heq)
    obtain ⟨tr₃, htr₃, hcalls₃⟩ := takeAll_calls (by simp) hclose
    exact hrest _ tr₃ htr₃ hcalls₃
  | some st =>
    by_cases hok : st.isOk
    · simp only [hok, not_true_eq_false, if_false] at h
      obtain ⟨⟨r, c₃⟩, hcommit, h⟩ := Option.bind_eq_some_iff.mp h
      obtain ⟨_, _, h⟩ := Option.bind_eq_some_iff.mp h
      obtain ⟨c₄, hclose, heq⟩ := Option.bind_eq_some_iff.mp h
      obtain ⟨rfl, rfl⟩ := Prod.mk.inj (Option.some.inj heq)
      have hend := (Cursor.takeAll_cons hcommit _).trans hclose
      obtain ⟨tr₃, htr₃, hcalls₃⟩ := takeAll_calls (by simp) hend
      exact hrest _ tr₃ htr₃ hcalls₃
    · simp only [hok] at h
      obtain ⟨c₃, hclose, heq⟩ := Option.bind_eq_some_iff.mp h
      obtain ⟨rfl, rfl⟩ := Prod.mk.inj (Option.some.inj heq)
      obtain ⟨tr₃, htr₃, hcalls₃⟩ := takeAll_calls (by simp) hclose
      exact hrest _ tr₃ htr₃ hcalls₃

section loop
variable {fn : List (List Reply) → Body} {s : State} {made : List Attempt} {out : Outcome}

private theorem retryLoop_cases {a : Attempt} (left : Nat) (lastStatus : Status)
    (hatt : attempt env (fn (made.map Attempt.replies)) c = some (a, c')) :
    (∃ result, retryLoop env fn (left + 1) lastStatus made c = some ⟨result, made ++ [a], c'⟩) ∨
      ∃ st, retryLoop env fn (left + 1) lastStatus made c = retryLoop env fn left st (made ++ [a]) c' := by
  rw [retryLoop, hatt]
  cases hend : a.ending with
  | threw | declined => exact .inl ⟨_, by simp [hend]; rfl⟩
  | committed st r =>
    by_cases hok : r.status.isOk
    · exact .inl ⟨_, by simp [hend, hok]; rfl⟩
    · by_cases hconf : r.status.isConflict
      · exact .inr ⟨r.status, by simp [hend, hok, hconf]⟩
      · exact .inl ⟨_, by simp [hend, hok, hconf]; rfl⟩

/-- The last attempt of the loop, from where the earlier ones have left the system. -/
private theorem retryLoop_last {left : Nat} {lastStatus : Status} (hm : Attempts fn s made c.trace c.sys)
    (h : retryLoop env fn (left + 1) lastStatus made c = some out) :
    ∃ early last c₁, out.attempts = early ++ [last] ∧ Attempts fn s early c₁.trace c₁.sys ∧
      attempt env (fn (early.map Attempt.replies)) c₁ = some (last, out.last) := by
  induction left generalizing lastStatus made c with
  | zero =>
    obtain ⟨a, c', _, hatt, _, _⟩ := attempt_spec env (fn (made.map Attempt.replies)) c
    rcases retryLoop_cases 0 lastStatus hatt with ⟨result, heq⟩ | ⟨st, heq⟩
    · obtain rfl := Option.some.inj (heq.symm.trans h)
      exact ⟨made, a, c, rfl, hm, hatt⟩
    · obtain rfl := Option.some.inj (heq.symm.trans h)
      exact ⟨made, a, c, rfl, hm, hatt⟩
  | succ left ih =>
    obtain ⟨a, c', tr, hatt, htr, ha⟩ := attempt_spec env (fn (made.map Attempt.replies)) c
    rcases retryLoop_cases (left + 1) lastStatus hatt with ⟨result, heq⟩ | ⟨st, heq⟩
    · obtain rfl := Option.some.inj (heq.symm.trans h)
      exact ⟨made, a, c, rfl, hm, hatt⟩
    · have hm' := hm.snoc ha
      rw [← htr] at hm'
      exact ih hm' (heq.symm.trans h)

end loop

end cursors

/-- A new transaction has no calls on record. -/
private theorem activeCalls_fresh {tr : List Event} {s : State} (h : machine.Execution tr s) :
    activeCalls s.manager.nextTxnId tr = [] := by
  have hnone : s.clients s.manager.nextTxnId = none := by
    by_contra hc
    exact absurd ((registered_of_execution h).drawn _ hc) (lt_irrefl _)
  have hrec := recorded_of_execution h s.manager.nextTxnId
  rw [Recorded, hnone] at hrec
  exact hrec le_rfl

section call
variable {env : Environment} {fn : List (List Reply) → Body} {maxAttempts : Int} {tr₀ : List Event} {s : State}
  {out : Outcome}

/-- The attempt that decides a call, with all that the run has recorded of its body's calls. -/
private theorem deciding_attempt (h : machine.Execution tr₀ s)
    (hrun : runWithRetry env fn maxAttempts { sys := s } = some out) (hok : out.result.isOk = true) :
    ∃ early last tr₁ tr₂ mid, out.attempts = early ++ [last] ∧ (∀ a ∈ early, a.Conflicted) ∧ last.Succeeded ∧
      Attempts fn s out.attempts out.last.trace out.last.sys ∧ out.last.trace = tr₁ ++ tr₂ ∧ machine.Path s tr₁ mid ∧
      Attempted (fn (early.map Attempt.replies)) mid tr₂ out.last.sys last ∧
      activeCalls last.txn.txnId (tr₀ ++ out.last.trace) = (fn (early.map Attempt.replies)).exchanged last.replies := by
  obtain ⟨out', hrun', hall, hcase⟩ := runWithRetry_spec env fn maxAttempts s
  obtain rfl : out' = out := Option.some.inj (hrun'.symm.trans hrun)
  rcases hcase with ⟨_, rfl⟩ | ⟨hpos, early, last, hstop⟩
  · cases hok
  obtain ⟨left, hleft⟩ : ∃ left, maxAttempts.toNat = left + 1 := ⟨maxAttempts.toNat - 1, by omega⟩
  rw [runWithRetry, if_neg (not_le.mpr hpos), hleft] at hrun
  obtain ⟨early', last', c₁, hatts, hbefore, hatt⟩ := retryLoop_last .nil hrun
  obtain ⟨rfl, heq⟩ := List.append_inj' (hstop.attempts.symm.trans hatts) rfl
  obtain rfl := (List.cons.inj heq).1
  obtain ⟨a, c', tr₂, hatt', htr, ha⟩ := attempt_spec env (fn (early.map Attempt.replies)) c₁
  obtain ⟨rfl, rfl⟩ := Prod.mk.inj (Option.some.inj (hatt'.symm.trans hatt))
  obtain ⟨tr, htr', hcalls, hid⟩ := attempt_calls hatt
  obtain rfl : tr₂ = tr := List.append_cancel_left (htr.symm.trans htr')
  refine ⟨early, a, c₁.trace, tr₂, c₁.sys, hatts, hstop.conflicted, ?_, hall, htr, hbefore.path, ha, ?_⟩
  · exact (result_isOk_iff ha).mp (hstop.result ▸ hok)
  · have hfresh := activeCalls_fresh (h.append hbefore.path)
    rw [← hid] at hfresh
    rw [htr, ← List.append_assoc, activeCalls_append, hfresh, hcalls, List.nil_append]

end call

/-- Take a body that, whatever it is answered and whatever else it does, returns OK only after it
has read the key once and then written `f` of what it read. In every interleaving a call of
`RunWithRetry` with it that reports OK has one commit that changes anything, and there, if the key
is present, its newest value becomes `f` of what it was. -/
theorem runWithRetry_updates_newest {tr₀ : List Event} {s : State} (h : machine.Execution tr₀ s) (env : Environment)
    {fn : List (List Reply) → Body} (maxAttempts : Int) {key : String} (hkey : key ≠ "") {f : Option String → String}
    (hfn : ∀ earlier replies st, (fn earlier).answer replies = some (some st) → st.code = .ok →
      Updates key f ((fn earlier).exchanged replies))
    {out : Outcome} (hrun : runWithRetry env fn maxAttempts { sys := s } = some out) (hok : out.result.isOk = true) :
    ∃ pre tc post, out.last.trace = pre ++ tc :: post ∧ machine.Path s pre tc.source ∧
      (∃ a ∈ out.attempts, tc.label = .commit a.txn.txnId false) ∧
      (∀ x, tc.source.store.latestValue key = some x → tc.target.store.latestValue key = some (f (some x))) ∧
      ∀ t ∈ pre ++ post, owned out.attempts t → LeavesStore t := by
  obtain ⟨early, last, tr₁, tr₂, mid, hatts, hconf, hs, hall, htr, _, ha, hcalls⟩ := deciding_attempt h hrun hok
  have hexec := h.append hall.path
  obtain ⟨st, r, he, hst, hcode⟩ := hs
  have hup := hfn _ last.replies st (by rw [ha.answer, he]; rfl) hst
  rw [← hcalls] at hup
  have hbefore {pre post : List Event} {tc : Event} {want : Bool} (heq : tr₀ ++ out.last.trace = pre ++ tc :: post)
      (hl : tc.label = .commit last.txn.txnId want) : Updates key f (activeCalls last.txn.txnId pre) := by
    rw [← activeCalls_until_commit (heq ▸ hexec) hl, ← heq]
    exact hup
  obtain ⟨value, hop⟩ : ∃ value, ⟨key, some value⟩ ∈ last.txn.ops := by
    obtain ⟨pre, tv, wait, tc, post, w⟩ := ha.window st r he
    have heq : tr₀ ++ out.last.trace = (tr₀ ++ tr₁ ++ (pre ++ tv :: wait)) ++ tc :: post := by
      rw [htr, w.split]
      simp
    exact update_buffered (heq ▸ hexec).around.1 w.object w.active hkey (hbefore heq w.commit)
  have happ := (hatts ▸ hall).applied h hconf ⟨st, r, he, hst, hcode⟩
  rw [AppliedOnce, if_neg (List.ne_nil_of_mem hop)] at happ
  obtain ⟨pre, tc, post, heq, hl, _, hentry, hrest⟩ := happ
  have heq₀ : tr₀ ++ out.last.trace = (tr₀ ++ pre) ++ tc :: post := by
    rw [heq, List.append_assoc]
  obtain ⟨hpre, htc, _⟩ := (heq₀ ▸ hexec).around
  refine ⟨pre, tc, post, heq, (heq ▸ hall.path).around.1, ⟨last, by simp [hatts], hl⟩, fun x hx => ?_, hatts ▸ hrest⟩
  rw [(represents_of_execution hpre).latestValue_eq] at hx
  rw [(represents_of_execution (hpre.snoc htc)).latestValue_eq, writeLog_concat, hentry, Option.toList_some]
  exact update_sees_latest hpre htc hl hentry ⟨_, hop, rfl⟩ (hbefore heq₀ hl) hx

private def countUp : Option String → String
  | some "0" => "1"
  | some "1" => "2"
  | _ => "3"

private def incrementCounter : Body :=
  .call (.get "counter") (fun r => .call (.put "counter" (countUp r.value)) (fun r' => .ret r'.status))

private theorem incrementCounter_updates (replies : List Reply) (st : Status)
    (h : incrementCounter.answer replies = some (some st)) :
    Updates "counter" countUp (incrementCounter.exchanged replies) := by
  rcases replies with _ | ⟨r, _ | ⟨r', _ | ⟨r'', rest⟩⟩⟩
  · cases h
  · cases h
  · exact ⟨r, r', rfl⟩
  · cases h

/-- Somebody else counts up between the body and the commit of the first attempt. -/
private def overtaker (taken : Nat) : List Action :=
  if taken = 5 then [.write (.put "counter" "1")] else []

private theorem incremented_once :
    (runWithRetry overtaker (fun _ => incrementCounter) 3 { sys := machine.final [.write (.put "counter" "0")] }).map
      (fun out => (out.result, out.attempts.length, out.last.sys.store.latestValue "counter")) =
      some (.returned .ok, 2, some "2") := by
  decide

theorem runWithRetry_updates_newest_overtaken :
    ∃ tr s out pre tc post, machine.Execution tr s ∧
      runWithRetry overtaker (fun _ => incrementCounter) 3 { sys := s } = some out ∧ out.attempts.length = 2 ∧
      out.last.sys.store.latestValue "counter" = some "2" ∧ out.last.trace = pre ++ tc :: post ∧
      ∀ x, tc.source.store.latestValue "counter" = some x →
        tc.target.store.latestValue "counter" = some (countUp (some x)) := by
  have h := Machine.scheduled (M := machine) [.write (.put "counter" "0")] (by decide)
  obtain ⟨out, hrun, hout⟩ := Option.map_eq_some_iff.mp incremented_once
  obtain ⟨hres, hrest⟩ := Prod.mk.inj hout
  obtain ⟨hlen, hvalue⟩ := Prod.mk.inj hrest
  obtain ⟨pre, tc, post, htr, _, _, hnew, _⟩ := runWithRetry_updates_newest h overtaker 3 (by decide)
    (fun _ replies st hans _ => incrementCounter_updates replies st hans) hrun (by rw [hres]; rfl)
  exact ⟨_, _, out, pre, tc, post, h, hrun, hlen, hvalue, htr, hnew⟩

end MvccLite.Threads
