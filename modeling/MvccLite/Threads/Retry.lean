import MvccLite.Threads.Boundary

/-! `RunWithRetry`, with everything that other threads do between its sections.
The body adapts to the replies it gets. After each section of the call others take
whatever sections they like, except those of the transaction that the call owns. -/
namespace MvccLite.Threads
open Library

/-- What the body does with its transaction, as a tree over the replies. -/
inductive Body where
  | ret (st : Status)
  | throws
  | call (c : DataCall) (next : Reply → Body)

/-- What others try to do after each section of the call. -/
abbrev Environment := Nat → List Action

/-- How far a call has come: the system, the sections it has taken itself, and all
sections since it was entered. -/
structure Cursor where
  sys : State
  taken : Nat := 0
  trace : List Event := []

namespace Cursor

/-- A section of somebody else, if it is enabled. -/
def other (id : Nat) (c : Cursor) (a : Action) : Cursor :=
  if a.client = some id then c
  else
    match c.sys.step a with
    | none => c
    | some (s', r) => { c with sys := s', trace := c.trace ++ [⟨c.sys, a, r, s'⟩] }

/-- A section of the call itself, and what others do after it. -/
def take (env : Environment) (id : Nat) (a : Action) (c : Cursor) : Option (Option Reply × Cursor) :=
  (c.sys.step a).map (fun out => (out.2, (env c.taken).foldl (other id)
    { sys := out.1, taken := c.taken + 1, trace := c.trace ++ [⟨c.sys, a, out.2, out.1⟩] }))

def takeAll (env : Environment) (id : Nat) : List Action → Cursor → Option Cursor
  | [], c => some c
  | a :: as, c => (c.take env id a).bind (fun out => takeAll env id as out.2)

end Cursor

/-- The body's status, or `none` if it throws, with the replies it has seen. -/
def Body.run (env : Environment) (id : Nat) : Body → Cursor → Option (Option Status × List Reply × Cursor)
  | .ret st, c => some (some st, [], c)
  | .throws, c => some (none, [], c)
  | .call d next, c =>
    match c.take env id (.data id d) with
    | some (some r, c') => ((next r).run env id c').map (fun out => (out.1, r :: out.2.1, out.2.2))
    | _ => none

/-- How an attempt ends: the body throws, or returns a status that is not OK, or
returns one that is and the commit replies. -/
inductive Ending where
  | threw
  | declined (st : Status)
  | committed (st : Status) (r : Reply)

/-- One iteration: the transaction as the body left it, the replies the body saw
and how it ended. -/
structure Attempt where
  txn : Transaction
  replies : List Reply
  ending : Ending

/-- `Begin`, the body, `Abort` or `Commit`, and the destructor of the transaction. -/
def attempt (env : Environment) (body : Body) (c : Cursor) : Option (Attempt × Cursor) := do
  let id := c.sys.manager.nextTxnId
  let c ← c.takeAll env id (beginSections id)
  let (out, replies, c) ← body.run env id c
  let txn ← c.sys.object id
  match out with
  | none =>
    let c ← c.takeAll env id [.destroy id, .unregister id]
    return (⟨txn, replies, .threw⟩, c)
  | some st =>
    if ¬ st.isOk then
      let c ← c.takeAll env id [.abort id, .unregister id, .destroy id]
      return (⟨txn, replies, .declined st⟩, c)
    else
      let (r, c) ← c.take env id (.commit id false)
      let r ← r
      let c ← c.takeAll env id [.unregister id, .destroy id]
      return (⟨txn, replies, .committed st r⟩, c)

/-- A status, or the body's exception. -/
inductive Result where
  | returned (st : Status)
  | threw
  deriving DecidableEq

def Result.isOk : Result → Bool
  | .returned st => st.isOk
  | .threw => false

/-- What a call hands back, with the attempts it made and where it left the system. -/
structure Outcome where
  result : Result
  attempts : List Attempt
  last : Cursor

/-- The loop, with the attempts left and those already made. -/
def retryLoop (env : Environment) (fn : List (List Reply) → Body) :
    Nat → Status → List Attempt → Cursor → Option Outcome
  | 0, lastStatus, made, c => some ⟨.returned lastStatus, made, c⟩
  | left + 1, _, made, c => do
    let (a, c) ← attempt env (fn (made.map Attempt.replies)) c
    match a.ending with
    | .threw => return ⟨.threw, made ++ [a], c⟩
    | .declined st => return ⟨.returned st, made ++ [a], c⟩
    | .committed _ r =>
      if r.status.isOk then return ⟨.returned .ok, made ++ [a], c⟩
      else if ¬ r.status.isConflict then return ⟨.returned r.status, made ++ [a], c⟩
      else retryLoop env fn left r.status (made ++ [a]) c

/-- The body may also depend on what earlier attempts have seen. -/
def runWithRetry (env : Environment) (fn : List (List Reply) → Body) (maxAttempts : Int) (c : Cursor) :
    Option Outcome :=
  if maxAttempts ≤ 0 then some ⟨.returned (.invalidArgument "max_attempts must be positive"), [], c⟩
  else retryLoop env fn maxAttempts.toNat .ok [] c

/-- From one point of the call to a later one, with nothing written by its transaction. -/
structure Silent (id : Nat) (c : Cursor) (tr : List Event) (c' : Cursor) : Prop where
  trace : c'.trace = c.trace ++ tr
  path : machine.Path c.sys tr c'.sys
  silent : ∀ t ∈ tr, t.label.client = some id → LeavesStore t

namespace Silent
variable {id : Nat} {c c' c'' : Cursor} {tr tr' : List Event}

theorem refl (id : Nat) (c : Cursor) : Silent id c [] c := ⟨by simp, .nil, by simp⟩

theorem trans (h : Silent id c tr c') (h' : Silent id c' tr' c'') : Silent id c (tr ++ tr') c'' where
  trace := by rw [h'.trace, h.trace, List.append_assoc]
  path := h.path.append h'.path
  silent t ht hown := by
    rcases List.mem_append.mp ht with ht | ht
    · exact h.silent t ht hown
    · exact h'.silent t ht hown

end Silent

namespace Cursor
variable {env : Environment} {id : Nat} {c : Cursor} {a : Action} {r : Option Reply} {s' : State}

/-- Others leave the transaction where it is. -/
private theorem others_spec (as : List Action) (hid : id < c.sys.manager.nextTxnId) :
    ∃ tr, (as.foldl (other id) c).trace = c.trace ++ tr ∧ machine.Path c.sys tr (as.foldl (other id) c).sys ∧
      (∀ t ∈ tr, t.label.client ≠ some id) ∧ (as.foldl (other id) c).sys.clients id = c.sys.clients id := by
  induction as generalizing c with
  | nil => exact ⟨[], by simp, .nil, by simp, rfl⟩
  | cons a as ih =>
    rw [List.foldl_cons]
    by_cases hown : a.client = some id
    · rw [other, if_pos hown]
      exact ih hid
    · cases hstep : c.sys.step a with
      | none =>
        rw [other, if_neg hown, hstep]
        exact ih hid
      | some out =>
        have hf := step_fires (hstep : _ = some (out.1, out.2))
        have hkept : out.1.clients id = c.sys.clients id := by
          rcases hf.client_frame hown with he | ⟨rfl, _⟩
          · exact he
          · exact absurd hid (lt_irrefl _)
        rw [other, if_neg hown, hstep]
        obtain ⟨tr, htr, hpath, hforeign, hcl⟩ :=
          ih (c := { c with sys := out.1, trace := c.trace ++ [⟨c.sys, a, out.2, out.1⟩] })
            (hid.trans_le hf.nextTxnId_le)
        refine ⟨⟨c.sys, a, out.2, out.1⟩ :: tr, by simpa using htr, ?_, ?_, hcl.trans hkept⟩
        · exact Machine.Path.cons (t := ⟨c.sys, a, out.2, out.1⟩) hstep hpath
        · intro t ht
          rcases List.mem_cons.mp ht with rfl | ht
          · exact hown
          · exact hforeign t ht

/-- An enabled section of the call is taken, and only others move after it. -/
theorem take_spec (env : Environment) (h : Fires c.sys a r s') (hid : id < s'.manager.nextTxnId) :
    ∃ c' rest, c.take env id a = some (r, c') ∧ c'.trace = c.trace ++ ⟨c.sys, a, r, s'⟩ :: rest ∧
      machine.Path s' rest c'.sys ∧ (∀ t ∈ rest, t.label.client ≠ some id) ∧
      c'.sys.clients id = s'.clients id := by
  have hstep : c.sys.step a = some (s', r) := fires_taken h
  obtain ⟨rest, htr, hpath, hforeign, hcl⟩ := others_spec (env c.taken)
    (c := { sys := s', taken := c.taken + 1, trace := c.trace ++ [⟨c.sys, a, r, s'⟩] }) hid
  exact ⟨_, rest, by rw [take, hstep]; rfl, by simpa using htr, hpath, hforeign, hcl⟩

theorem take_silent (env : Environment) (h : Fires c.sys a r s') (hid : id < s'.manager.nextTxnId)
    (hs : LeavesStore ⟨c.sys, a, r, s'⟩) :
    ∃ c' rest, c.take env id a = some (r, c') ∧ Silent id c (⟨c.sys, a, r, s'⟩ :: rest) c' ∧
      id < c'.sys.manager.nextTxnId ∧ c'.sys.clients id = s'.clients id := by
  obtain ⟨c', rest, htake, htr, hpath, hforeign, hcl⟩ := take_spec env h hid
  refine ⟨c', rest, htake, ⟨htr, Machine.Path.cons (fires_taken h) hpath, fun t ht hown => ?_⟩,
    hid.trans_le (nextTxnId_mono hpath), hcl⟩
  rcases List.mem_cons.mp ht with rfl | ht
  · exact hs
  · exact absurd hown (hforeign t ht)

theorem takeAll_cons {c' : Cursor} (h : c.take env id a = some (r, c')) (as : List Action) :
    c.takeAll env id (a :: as) = c'.takeAll env id as := by
  rw [takeAll, h]
  rfl

end Cursor

/-- The body's answer to these replies: its status, or `none` if it throws. -/
def Body.answer : Body → List Reply → Option (Option Status)
  | .ret st, [] => some (some st)
  | .throws, [] => some none
  | .call _ next, r :: rs => (next r).answer rs
  | _, _ => none

section sections
variable {id : Nat} {c : Cursor} {txn : Transaction}

/-- `Begin` pins the version that is current when it reads it. -/
theorem begin_spec (env : Environment) (c : Cursor) (hid : id = c.sys.manager.nextTxnId) :
    ∃ c' pre tv mid, c.takeAll env id (beginSections id) = some c' ∧ Silent id c (pre ++ tv :: mid) c' ∧
      tv.label = .readVersion id ∧ id < c'.sys.manager.nextTxnId ∧
      c'.sys.clients id =
        some (.returned { txnId := id, snapshotVersion := tv.source.store.currentVersion }) := by
  have hdrawn : id < c.sys.manager.fetchTxnId.nextTxnId := by
    rw [hid]
    exact Nat.lt_succ_self _
  obtain ⟨c₁, _, htake₁, hs₁, hid₁, hc₁⟩ := Cursor.take_silent env (.fetchTxnId (s := c.sys)) hdrawn ⟨rfl, rfl⟩
  rw [← hid, State.setClient_self] at hc₁
  obtain ⟨c₂, _, htake₂, hs₂, hid₂, hc₂⟩ := Cursor.take_silent env (.placeholder hc₁) hid₁ ⟨rfl, rfl⟩
  rw [State.setClient_self] at hc₂
  obtain ⟨c₃, _, htake₃, hs₃, hid₃, hc₃⟩ := Cursor.take_silent env (.readVersion hc₂) hid₂ ⟨rfl, rfl⟩
  rw [State.setClient_self] at hc₃
  obtain ⟨c₄, _, htake₄, hs₄, hid₄, hc₄⟩ := Cursor.take_silent env (.refine hc₃) hid₃ ⟨rfl, rfl⟩
  rw [State.setClient_self] at hc₄
  refine ⟨c₄, _, _, _, ?_, (hs₁.trans hs₂).trans (hs₃.trans hs₄), rfl, hid₄, hc₄⟩
  rw [beginSections, Cursor.takeAll_cons htake₁, Cursor.takeAll_cons htake₂, Cursor.takeAll_cons htake₃,
    Cursor.takeAll_cons htake₄, Cursor.takeAll]

/-- The body only moves its own buffer. -/
theorem run_spec (env : Environment) (body : Body) (hid : id < c.sys.manager.nextTxnId)
    (hc : c.sys.clients id = some (.returned txn)) (ha : txn.state = .active) :
    ∃ out replies c' tr txn', body.run env id c = some (out, replies, c') ∧ Silent id c tr c' ∧
      id < c'.sys.manager.nextTxnId ∧ c'.sys.clients id = some (.returned txn') ∧ txn'.state = .active ∧
      txn'.txnId = txn.txnId ∧ txn'.snapshotVersion = txn.snapshotVersion ∧
      body.answer replies = some out := by
  induction body generalizing c txn with
  | ret st => exact ⟨some st, [], c, [], txn, rfl, .refl id c, hid, hc, ha, rfl, rfl, rfl⟩
  | throws => exact ⟨none, [], c, [], txn, rfl, .refl id c, hid, hc, ha, rfl, rfl, rfl⟩
  | call d next ih =>
    obtain ⟨c₁, _, htake, hs₁, hid₁, hc₁⟩ := Cursor.take_silent env (.data d hc) hid ⟨rfl, rfl⟩
    rw [State.setClient_self] at hc₁
    obtain ⟨htxn, hsnap, hstate⟩ := txn.exec_fixed c.sys.store d
    obtain ⟨out, replies, c', tr, txn', hrun, hs, hid', hc', ha', htxn', hsnap', hans⟩ :=
      ih (txn.exec c.sys.store d).2 hid₁ hc₁ (hstate.trans ha)
    refine ⟨out, _ :: replies, c', _, txn', ?_, hs₁.trans hs, hid', hc', ha', htxn'.trans htxn,
      hsnap'.trans hsnap, hans⟩
    rw [Body.run, htake]
    simp [hrun]

/-- The destructor of an active transaction. -/
theorem destroy_spec (env : Environment) (hid : id < c.sys.manager.nextTxnId)
    (hc : c.sys.clients id = some (.returned txn)) (ha : txn.state = .active) :
    ∃ c' tr, c.takeAll env id [.destroy id, .unregister id] = some c' ∧ Silent id c tr c' ∧
      id < c'.sys.manager.nextTxnId ∧ c'.sys.clients id = none := by
  obtain ⟨c₁, _, htake₁, hs₁, hid₁, hc₁⟩ := Cursor.take_silent env (.destroy hc ha) hid ⟨rfl, rfl⟩
  rw [State.setClient_self] at hc₁
  obtain ⟨c₂, _, htake₂, hs₂, hid₂, hc₂⟩ := Cursor.take_silent env (.unregisterDestroyed hc₁) hid₁ ⟨rfl, rfl⟩
  rw [State.setClient_self] at hc₂
  refine ⟨c₂, _, ?_, hs₁.trans hs₂, hid₂, hc₂⟩
  rw [Cursor.takeAll_cons htake₁, Cursor.takeAll_cons htake₂, Cursor.takeAll]

/-- The rest of `Commit` or `Abort`, and the destructor of the finished transaction. -/
theorem finish_spec (env : Environment) (hid : id < c.sys.manager.nextTxnId)
    (hc : c.sys.clients id = some (.ending txn)) (ha : txn.state ≠ .active) :
    ∃ c' tr, c.takeAll env id [.unregister id, .destroy id] = some c' ∧ Silent id c tr c' ∧
      id < c'.sys.manager.nextTxnId ∧ c'.sys.clients id = none := by
  obtain ⟨c₁, _, htake₁, hs₁, hid₁, hc₁⟩ := Cursor.take_silent env (.unregister hc) hid ⟨rfl, rfl⟩
  rw [State.setClient_self] at hc₁
  obtain ⟨c₂, _, htake₂, hs₂, hid₂, hc₂⟩ := Cursor.take_silent env (.destroyFinished hc₁ ha) hid₁ ⟨rfl, rfl⟩
  rw [State.setClient_self] at hc₂
  refine ⟨c₂, _, ?_, hs₁.trans hs₂, hid₂, hc₂⟩
  rw [Cursor.takeAll_cons htake₁, Cursor.takeAll_cons htake₂, Cursor.takeAll]

theorem abort_spec (env : Environment) (hid : id < c.sys.manager.nextTxnId)
    (hc : c.sys.clients id = some (.returned txn)) (ha : txn.state = .active) :
    ∃ c' tr, c.takeAll env id [.abort id, .unregister id, .destroy id] = some c' ∧ Silent id c tr c' ∧
      id < c'.sys.manager.nextTxnId ∧ c'.sys.clients id = none := by
  obtain ⟨c₁, _, htake₁, hs₁, hid₁, hc₁⟩ := Cursor.take_silent env (.abort hc ha) hid ⟨rfl, rfl⟩
  rw [State.setClient_self] at hc₁
  obtain ⟨c₂, _, htake₂, hs₂, hid₂, hc₂⟩ := finish_spec env hid₁ hc₁ txn.abort_state
  exact ⟨c₂, _, by rw [Cursor.takeAll_cons htake₁, htake₂], hs₁.trans hs₂, hid₂, hc₂⟩

/-- `Commit` up to `Unregister`, by a section of its own that replies. -/
theorem commit_spec (env : Environment) (hid : id < c.sys.manager.nextTxnId)
    (hc : c.sys.clients id = some (.returned txn)) (ha : txn.state = .active) :
    ∃ c' tc rest r, c.take env id (.commit id false) = some (some r, c') ∧ c'.trace = c.trace ++ tc :: rest ∧
      machine.Path c.sys (tc :: rest) c'.sys ∧ (∀ t ∈ rest, t.label.client = some id → LeavesStore t) ∧
      tc.label = .commit id false ∧ tc.output = some r ∧ tc.source.clients id = some (.returned txn) ∧
      id < c'.sys.manager.nextTxnId ∧ ∃ txn', c'.sys.clients id = some (.ending txn') ∧ txn'.state ≠ .active := by
  have hf := Fires.commit false hc ha
  obtain ⟨c', rest, htake, htr, hpath, hforeign, hcl⟩ := Cursor.take_spec env hf hid
  rw [State.setClient_self] at hcl
  have hpath' := Machine.Path.cons (fires_taken hf) hpath
  exact ⟨c', _, rest, _, htake, htr, hpath', fun t ht hown => absurd hown (hforeign t ht), rfl, rfl, hc,
    hid.trans_le (nextTxnId_mono hpath'), _, hcl, txn.commit_state c.sys.store false⟩

end sections

/-- What the body made of the attempt. -/
def Ending.body : Ending → Option Status
  | .threw => none
  | .declined st | .committed st _ => some st

/-- A transaction that validated against what it read at `tv` commits at `tc`,
and writes at no other section. -/
structure Window (a : Attempt) (r : Reply) (tr pre : List Event) (tv : Event) (mid : List Event) (tc : Event)
    (post : List Event) : Prop where
  split : tr = pre ++ tv :: (mid ++ tc :: post)
  read : tv.label = .readVersion a.txn.txnId
  snapshot : tv.source.store.currentVersion = a.txn.snapshotVersion
  commit : tc.label = .commit a.txn.txnId false
  reply : tc.output = some r
  object : tc.source.clients a.txn.txnId = some (.returned a.txn)
  active : a.txn.state = .active
  silent : ∀ t ∈ pre ++ tv :: mid ++ post, t.label.client = some a.txn.txnId → LeavesStore t

/-- One attempt of the body, from a state to a later one. -/
structure Attempted (body : Body) (s : State) (tr : List Event) (s' : State) (a : Attempt) : Prop where
  path : machine.Path s tr s'
  fresh : s.manager.nextTxnId ≤ a.txn.txnId
  drawn : a.txn.txnId < s'.manager.nextTxnId
  gone : s'.clients a.txn.txnId = none
  opened : ∃ pre tv rest, tr = pre ++ tv :: rest ∧ tv.source.store.currentVersion = a.txn.snapshotVersion
  answer : body.answer a.replies = some a.ending.body
  declined : ∀ st, a.ending = .declined st → st.code ≠ .ok
  accepted : ∀ st r, a.ending = .committed st r → st.code = .ok
  silent : (∀ st r, a.ending ≠ .committed st r) →
    ∀ t ∈ tr, t.label.client = some a.txn.txnId → LeavesStore t
  window : ∀ st r, a.ending = .committed st r → ∃ pre tv mid tc post, Window a r tr pre tv mid tc post

private theorem attempted_silent {body : Body} {c c' : Cursor} {tr : List Event} {a : Attempt}
    (hs : Silent a.txn.txnId c tr c') (hfresh : a.txn.txnId = c.sys.manager.nextTxnId)
    (hid : a.txn.txnId < c'.sys.manager.nextTxnId) (hgone : c'.sys.clients a.txn.txnId = none)
    (hopen : ∃ pre tv rest, tr = pre ++ tv :: rest ∧ tv.source.store.currentVersion = a.txn.snapshotVersion)
    (hans : body.answer a.replies = some a.ending.body)
    (hend : ∀ st, a.ending = .declined st → st.code ≠ .ok) (hno : ∀ st r, a.ending ≠ .committed st r) :
    Attempted body c.sys tr c'.sys a where
  path := hs.path
  fresh := hfresh.ge
  drawn := hid
  gone := hgone
  opened := hopen
  answer := hans
  declined := hend
  accepted st r h := absurd h (hno st r)
  silent _ := hs.silent
  window st r h := absurd h (hno st r)

private theorem attempted_committed {body : Body} {c c₁ c₂ c' : Cursor} {pre mid rest tr : List Event}
    {tv tc : Event} {txn : Transaction} {replies : List Reply} {st : Status} {r : Reply}
    (hs : Silent txn.txnId c (pre ++ tv :: mid) c₁) (hread : tv.label = .readVersion txn.txnId)
    (hsnap : tv.source.store.currentVersion = txn.snapshotVersion) (ha : txn.state = .active)
    (hfresh : txn.txnId = c.sys.manager.nextTxnId) (hans : body.answer replies = some (some st))
    (hok : st.isOk = true) (hpath : machine.Path c₁.sys (tc :: rest) c₂.sys)
    (hrest : ∀ t ∈ rest, t.label.client = some txn.txnId → LeavesStore t)
    (hl : tc.label = .commit txn.txnId false) (hout : tc.output = some r)
    (hc : tc.source.clients txn.txnId = some (.returned txn)) (hs' : Silent txn.txnId c₂ tr c')
    (hid : txn.txnId < c'.sys.manager.nextTxnId) (hgone : c'.sys.clients txn.txnId = none) :
    Attempted body c.sys (pre ++ tv :: (mid ++ tc :: (rest ++ tr))) c'.sys ⟨txn, replies, .committed st r⟩ where
  path := by simpa using hs.path.append (hpath.append hs'.path)
  fresh := hfresh.ge
  drawn := hid
  gone := hgone
  opened := ⟨pre, tv, _, rfl, hsnap⟩
  answer := hans
  declined := by simp
  accepted st' r' h := by
    obtain ⟨rfl, _⟩ := Ending.committed.inj h
    simpa [Status.isOk] using hok
  silent h := absurd rfl (h st r)
  window st' r' h := by
    obtain ⟨_, rfl⟩ := Ending.committed.inj h
    refine ⟨pre, tv, mid, tc, rest ++ tr, rfl, hread, hsnap, hl, hout, hc, ha, fun t ht hown => ?_⟩
    rcases List.mem_append.mp ht with ht | ht
    · exact hs.silent t ht hown
    · rcases List.mem_append.mp ht with ht | ht
      · exact hrest t ht hown
      · exact hs'.silent t ht hown

/-- `Begin` and the body. -/
private theorem opened_spec {id : Nat} (env : Environment) (body : Body) (c : Cursor)
    (hid : id = c.sys.manager.nextTxnId) :
    ∃ out replies c₁ c' pre tv mid txn, c.takeAll env id (beginSections id) = some c₁ ∧
      body.run env id c₁ = some (out, replies, c') ∧ Silent id c (pre ++ tv :: mid) c' ∧
      tv.label = .readVersion id ∧ tv.source.store.currentVersion = txn.snapshotVersion ∧
      id < c'.sys.manager.nextTxnId ∧ c'.sys.clients id = some (.returned txn) ∧ txn.txnId = id ∧
      txn.state = .active ∧ body.answer replies = some out := by
  obtain ⟨c₁, pre, tv, mid, hbegin, hs₁, hread, hid₁, hc₁⟩ := begin_spec env c hid
  obtain ⟨out, replies, c₂, tr, txn, hrun, hs₂, hid₂, hc₂, ha, htxn, hsnap, hans⟩ :=
    run_spec env body hid₁ hc₁ rfl
  have hs := hs₁.trans hs₂
  rw [List.append_assoc] at hs
  exact ⟨out, replies, c₁, c₂, pre, tv, mid ++ tr, txn, hbegin, hrun, hs, hread, hsnap.symm, hid₂, hc₂, htxn, ha,
    hans⟩

/-- An attempt always comes to its end. -/
theorem attempt_spec (env : Environment) (body : Body) (c : Cursor) :
    ∃ a c' tr, attempt env body c = some (a, c') ∧ c'.trace = c.trace ++ tr ∧
      Attempted body c.sys tr c'.sys a := by
  obtain ⟨id, hid⟩ : ∃ id, id = c.sys.manager.nextTxnId := ⟨_, rfl⟩
  obtain ⟨out, replies, c₁, c₂, pre, tv, mid, txn, hbegin, hrun, hs, hread, hsnap, hid₂, hc₂, rfl, ha, hans⟩ :=
    opened_spec env body c hid
  have hobj : c₂.sys.object txn.txnId = some txn := by simp [State.object, hc₂, Phase.object]
  cases out with
  | none =>
    obtain ⟨c₃, tr₃, hclose, hs₃, hid₃, hc₃⟩ := destroy_spec env hid₂ hc₂ ha
    refine ⟨⟨txn, replies, .threw⟩, c₃, _, ?_, (hs.trans hs₃).trace,
      attempted_silent (hs.trans hs₃) hid hid₃ hc₃ ⟨pre, tv, mid ++ tr₃, by simp, hsnap⟩ hans (by simp) (by simp)⟩
    simp [attempt, ← hid, hbegin, hrun, hobj, hclose]
  | some st =>
    by_cases hok : st.isOk
    · obtain ⟨c₃, tc, rest, r, hcommit, htr₃, hpath₃, hrest, hl, hout, hsrc, hid₃, txn', hc₃, ha'⟩ :=
        commit_spec env hid₂ hc₂ ha
      obtain ⟨c₄, tr₄, hclose, hs₄, hid₄, hc₄⟩ := finish_spec env hid₃ hc₃ ha'
      refine ⟨⟨txn, replies, .committed st r⟩, c₄, _, ?_, ?_,
        attempted_committed hs hread hsnap ha hid hans hok hpath₃ hrest hl hout hsrc hs₄ hid₄ hc₄⟩
      · simp [attempt, ← hid, hbegin, hrun, hobj, hcommit, hclose, hok]
      · rw [hs₄.trace, htr₃, hs.trace]
        simp
    · obtain ⟨c₃, tr₃, hclose, hs₃, hid₃, hc₃⟩ := abort_spec env hid₂ hc₂ ha
      refine ⟨⟨txn, replies, .declined st⟩, c₃, _, ?_, (hs.trans hs₃).trace,
        attempted_silent (hs.trans hs₃) hid hid₃ hc₃ ⟨pre, tv, mid ++ tr₃, by simp, hsnap⟩ hans ?_ (by simp)⟩
      · simp [attempt, ← hid, hbegin, hrun, hobj, hclose, hok]
      · simpa [Status.isOk] using hok

end MvccLite.Threads
