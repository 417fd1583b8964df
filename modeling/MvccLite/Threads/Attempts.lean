import MvccLite.Threads.Retry

/-! The attempts of a `RunWithRetry` call, one after the other. Their transactions
never meet: each is drawn after the one before it is gone. -/
namespace MvccLite.Threads
open Library

/-- The body returned OK and the commit conflicted. -/
def Attempt.Conflicted (a : Attempt) : Prop :=
  ∃ st r, a.ending = .committed st r ∧ st.code = .ok ∧ r.status.code = .conflict

/-- The body returned OK and the commit succeeded. -/
def Attempt.Succeeded (a : Attempt) : Prop :=
  ∃ st r, a.ending = .committed st r ∧ st.code = .ok ∧ r.status.code = .ok

/-- The section is one of the attempts' own. -/
def owned (as : List Attempt) (t : Event) : Bool := as.any (fun a => t.label.client = some a.txn.txnId)

theorem owned_iff {as : List Attempt} {t : Event} :
    owned as t = true ↔ ∃ a ∈ as, t.label.client = some a.txn.txnId := by
  simp [owned]

/-- Attempts in sequence; each body may depend on the replies of the earlier ones. -/
inductive Attempts (fn : List (List Reply) → Body) (s : State) : List Attempt → List Event → State → Prop
  | nil : Attempts fn s [] [] s
  | snoc {as : List Attempt} {a : Attempt} {tr tr' : List Event} {s' s'' : State} : Attempts fn s as tr s' →
      Attempted (fn (as.map Attempt.replies)) s' tr' s'' a → Attempts fn s (as ++ [a]) (tr ++ tr') s''

/-- What the loop makes of its last attempt. -/
def Ending.result : Ending → Result
  | .threw => .threw
  | .declined st => .returned st
  | .committed _ r => .returned (if r.status.isOk then .ok else r.status)

/-- One round of the loop makes one attempt. It goes on if that conflicts, with the
conflict as its last status, and else reports what came of it. -/
theorem retryLoop_round (env : Environment) {fn : List (List Reply) → Body} {s : State} (left : Nat)
    (lastStatus : Status) {made : List Attempt} {c : Cursor} (h : Attempts fn s made c.trace c.sys) :
    ∃ a c', Attempts fn s (made ++ [a]) c'.trace c'.sys ∧
      ((¬ a.Conflicted ∧
          retryLoop env fn (left + 1) lastStatus made c = some ⟨a.ending.result, made ++ [a], c'⟩) ∨
        ∃ st, a.Conflicted ∧ a.ending.result = .returned st ∧
          retryLoop env fn (left + 1) lastStatus made c = retryLoop env fn left st (made ++ [a]) c') := by
  obtain ⟨a, c', tr, hatt, htr, ha⟩ := attempt_spec env (fn (made.map Attempt.replies)) c
  have h' := h.snoc ha
  rw [← htr] at h'
  refine ⟨a, c', h', ?_⟩
  rw [retryLoop, hatt]
  cases hend : a.ending with
  | threw => exact .inl ⟨by simp [Attempt.Conflicted, hend], by simp [hend, Ending.result]⟩
  | declined st => exact .inl ⟨by simp [Attempt.Conflicted, hend], by simp [hend, Ending.result]⟩
  | committed st r =>
    by_cases hok : r.status.code = .ok
    · refine .inl ⟨by simp [Attempt.Conflicted, hend, hok], ?_⟩
      simp [hend, Ending.result, Status.isOk, hok]
    · by_cases hconf : r.status.code = .conflict
      · refine .inr ⟨r.status, ⟨st, r, hend, ha.accepted st r hend, hconf⟩, ?_, ?_⟩
        · simp [Ending.result, Status.isOk, hok]
        · simp [hend, Status.isOk, Status.isConflict, hconf]
      · refine .inl ⟨by simp [Attempt.Conflicted, hend, hconf], ?_⟩
        simp [hend, Ending.result, Status.isOk, Status.isConflict, hok, hconf]

/-- A call that may make `total` attempts stops after the last of these: the first
one that does not conflict, unless none is left. -/
structure Stops (total : Nat) (out : Outcome) (early : List Attempt) (last : Attempt) : Prop where
  attempts : out.attempts = early ++ [last]
  count : early.length + 1 ≤ total
  conflicted : ∀ a ∈ early, a.Conflicted
  result : out.result = last.ending.result
  exhausted : last.Conflicted → early.length + 1 = total

theorem retryLoop_spec (env : Environment) {fn : List (List Reply) → Body} {s : State} (left : Nat)
    (lastStatus : Status) {made : List Attempt} {c : Cursor} (h : Attempts fn s made c.trace c.sys)
    (hmade : ∀ a ∈ made, a.Conflicted) :
    ∃ out, retryLoop env fn left lastStatus made c = some out ∧
      Attempts fn s out.attempts out.last.trace out.last.sys ∧
      (left = 0 ∧ out = ⟨.returned lastStatus, made, c⟩ ∨
        ∃ early last, Stops (made.length + left) out early last) := by
  induction left generalizing lastStatus made c with
  | zero => exact ⟨_, rfl, h, .inl ⟨rfl, rfl⟩⟩
  | succ left ih =>
    obtain ⟨a, c', h', hround⟩ := retryLoop_round env left lastStatus h
    rcases hround with ⟨hno, hstop⟩ | ⟨st, hconf, hres, hnext⟩
    · exact ⟨_, hstop, h', .inr ⟨made, a, rfl, by omega, hmade, rfl, fun hc => absurd hc hno⟩⟩
    · have hmade' : ∀ b ∈ made ++ [a], b.Conflicted :=
        List.forall_mem_append.mpr ⟨hmade, List.forall_mem_singleton.mpr hconf⟩
      obtain ⟨out, hout, hatts, hcase⟩ := ih st h' hmade'
      refine ⟨out, hnext.trans hout, hatts, .inr ?_⟩
      rcases hcase with ⟨rfl, rfl⟩ | ⟨early, last, hstop⟩
      · exact ⟨made, a, rfl, le_rfl, hmade, hres.symm, fun _ => rfl⟩
      · rw [List.length_append, List.length_singleton, Nat.add_assoc, Nat.add_comm 1] at hstop
        exact ⟨early, last, hstop⟩

/-- A transaction that is gone takes no further section. -/
theorem gone_path {s s' : State} {tr : List Event} (h : machine.Path s tr s') {id : Nat}
    (hid : id < s.manager.nextTxnId) (hc : s.clients id = none) :
    s'.clients id = none ∧ ∀ t ∈ tr, t.label.client ≠ some id := by
  refine h.invariant (I := fun tr s' => s'.clients id = none ∧ ∀ t ∈ tr, t.label.client ≠ some id)
    ⟨hc, by simp⟩ ?_
  intro tr t hp ht ⟨hnone, hforeign⟩
  have hne : t.label.client ≠ some id := by
    intro hown
    obtain ⟨ph, _, hsome, _⟩ := (taken_fires ht).moves hown
    rw [hnone] at hsome
    cases hsome
  constructor
  · rcases (taken_fires ht).client_frame hne with he | ⟨rfl, _⟩
    · rw [he, hnone]
    · exact absurd (nextTxnId_mono hp) (by omega)
  · intro u hu
    rcases List.mem_append.mp hu with hu | hu
    · exact hforeign u hu
    · obtain rfl := List.mem_singleton.mp hu
      exact hne

/-- Whoever takes a section has been drawn. -/
theorem drawn_of_mem {tr₀ tr : List Event} {s s' : State} (hx : machine.Execution tr₀ s)
    (h : machine.Path s tr s') {t : Event} (ht : t ∈ tr) {id : Nat} (hown : t.label.client = some id) :
    id < s'.manager.nextTxnId := by
  obtain ⟨pre, post, rfl, hpre, htaken, hpost⟩ := h.of_mem ht
  obtain ⟨ph, _, hsome, _⟩ := (taken_fires htaken).moves hown
  have hdrawn := (registered_of_execution (hx.append hpre)).drawn id (by simp [hsome])
  exact hdrawn.trans_le (nextTxnId_mono (.cons htaken hpost))

namespace Attempts
variable {fn : List (List Reply) → Body} {tr₀ tr tr' : List Event} {s s' s'' : State} {as : List Attempt}
  {a : Attempt}

theorem path (h : Attempts fn s as tr s') : machine.Path s tr s' := by
  induction h with
  | nil => exact .nil
  | snoc _ ha ih => exact ih.append ha.path

/-- On every exit the transactions begun so far are gone. -/
theorem gone (h : Attempts fn s as tr s') :
    ∀ a ∈ as, a.txn.txnId < s'.manager.nextTxnId ∧ s'.clients a.txn.txnId = none := by
  induction h with
  | nil => simp
  | @snoc as a tr tr' s' s'' _ ha ih =>
    intro b hb
    rcases List.mem_append.mp hb with hb | hb
    · obtain ⟨hid, hnone⟩ := ih b hb
      exact ⟨hid.trans_le (nextTxnId_mono ha.path), (gone_path ha.path hid hnone).1⟩
    · obtain rfl := List.mem_singleton.mp hb
      exact ⟨ha.drawn, ha.gone⟩

/-- Earlier sections are none of a new attempt's. -/
theorem owned_before (hx : machine.Execution tr₀ s) (h : Attempts fn s as tr s')
    (ha : Attempted (fn (as.map Attempt.replies)) s' tr' s'' a) {t : Event} (ht : t ∈ tr) :
    owned (as ++ [a]) t = owned as t := by
  have hne : t.label.client ≠ some a.txn.txnId := fun hown =>
    absurd (drawn_of_mem hx h.path ht hown) (not_lt.mpr ha.fresh)
  simp [owned, hne]

/-- The sections of a new attempt are none of the earlier ones'. -/
theorem owned_during (h : Attempts fn s as tr s') (ha : Attempted (fn (as.map Attempt.replies)) s' tr' s'' a)
    {t : Event} (ht : t ∈ tr') : owned (as ++ [a]) t = true ↔ t.label.client = some a.txn.txnId := by
  rw [owned_iff]
  constructor
  · rintro ⟨b, hb, hown⟩
    rcases List.mem_append.mp hb with hb | hb
    · obtain ⟨hid, hnone⟩ := h.gone b hb
      exact absurd hown ((gone_path ha.path hid hnone).2 t ht)
    · rwa [List.mem_singleton.mp hb] at hown
  · exact fun hown => ⟨a, by simp, hown⟩

end Attempts

namespace Window
variable {a : Attempt} {r : Reply} {tr₀ tr pre mid post : List Event} {tv tc : Event} {s s' : State}

/-- The system up to the commit. -/
theorem reached (w : Window a r tr pre tv mid tc post) (hx : machine.Execution tr₀ s) (h : machine.Path s tr s') :
    machine.Execution (tr₀ ++ (pre ++ tv :: mid)) tc.source ∧ Fires tc.source tc.label tc.output tc.target := by
  rw [w.split, ← List.cons_append, ← List.append_assoc] at h
  obtain ⟨hpre, ht, _⟩ := h.around
  exact ⟨hx.append hpre, taken_fires ht⟩

theorem verdict (w : Window a r tr pre tv mid tc post) (hx : machine.Execution tr₀ s) (h : machine.Path s tr s') :
    (a.txn.ops = [] ∧ r.status.code = .ok ∧ LeavesStore tc) ∨
    (a.txn.ops ≠ [] ∧ r.status.code = .ok ∧ tc.target.store = tc.source.store.append a.txn.ops ∧
      writeEntry tc = some ⟨tc.source.store.nextVersion, a.txn.ops⟩) ∨
    (r.status.code = .conflict ∧ LeavesStore tc ∧
      ∃ op ∈ a.txn.ops, tc.source.store.writtenSince a.txn.snapshotVersion op.key = true) := by
  obtain ⟨hreach, hf⟩ := w.reached hx h
  have hc := w.commit
  have hr := w.reply
  have ho := w.object
  obtain ⟨src, lbl, out, tgt⟩ := tc
  subst hc hr
  rcases hf.commit_cases ho w.active (allBuffered_of_execution hreach) with
    ⟨he, hok, hl⟩ | ⟨he, _, hr, hs, _, hw⟩ | ⟨_, hw, hcode, hl⟩
  · exact .inl ⟨a.txn.ops_eq_nil.mpr he, hok, hl⟩
  · exact .inr (.inl ⟨fun hn => he (a.txn.ops_eq_nil.mp hn), by rw [hr]; rfl, hs, hw⟩)
  · exact .inr (.inr ⟨hcode, hl, hw⟩)

/-- A conflict was caused after the snapshot was read, by somebody else. -/
theorem overtaken (w : Window a r tr pre tv mid tc post) (hx : machine.Execution tr₀ s) (h : machine.Path s tr s')
    (hcode : r.status.code = .conflict) :
    a.txn.snapshotVersion < tc.source.store.currentVersion ∧
      ∃ t ∈ mid, t.label.client ≠ some a.txn.txnId ∧
        ∃ e, writeEntry t = some e ∧ ∃ key ∈ a.txn.writeSet, e.Touches key := by
  rcases w.verdict hx h with ⟨_, hok, _⟩ | ⟨_, hok, _⟩ | ⟨_, _, op, hop, hw⟩
  · rw [hcode] at hok
    cases hok
  · rw [hcode] at hok
    cases hok
  · obtain ⟨hreach, _⟩ := w.reached hx h
    have hr := represents_of_execution hreach
    obtain ⟨e, he, htouch, hlt⟩ := hr.written_of_writtenSince hw
    refine ⟨hlt.trans_le ((hr.numbered.bounds he).2.trans hr.currentVersion_eq.ge), ?_⟩
    have hread : writeEntry tv = none := by simp [writeEntry, w.read]
    have hlog : writeLog (tr₀ ++ (pre ++ tv :: mid)) = writeLog (tr₀ ++ pre) ++ writeLog mid := by
      simp [writeLog, hread]
    rw [hlog] at he
    rcases List.mem_append.mp he with he | he
    · rw [← List.append_assoc] at hreach
      have hbefore := represents_of_execution hreach.around.1
      have hle := (hbefore.numbered.bounds he).2
      rw [← hbefore.currentVersion_eq, w.snapshot] at hle
      exact absurd hlt (not_lt.mpr hle)
    · obtain ⟨t, ht, hentry⟩ := List.mem_filterMap.mp he
      refine ⟨t, ht, fun hown => ?_, e, hentry, op.key, a.txn.mem_writeSet.mpr ⟨op, hop, rfl⟩, htouch⟩
      have hnone := (w.silent t (by simp [ht]) hown).2
      rw [hentry] at hnone
      cases hnone

end Window

end MvccLite.Threads
