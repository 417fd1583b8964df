import MvccLite.Threads.Attempts

/-! What a call of `RunWithRetry` guarantees whatever its body and the other threads
do: its writes go in once or not at all, nothing stays registered, and each retry is
paid for by a successful write of somebody else. -/
namespace MvccLite.Threads
open Library

/-- The write set went in once, at one version, or there was none; and no other
section of the attempts changed the store. -/
def AppliedOnce (as : List Attempt) (txn : Transaction) (tr : List Event) : Prop :=
  if txn.ops = [] then ∀ t ∈ tr, owned as t → LeavesStore t
  else ∃ pre tc post, tr = pre ++ tc :: post ∧ tc.label = .commit txn.txnId false ∧
    tc.target.store = tc.source.store.append txn.ops ∧
    writeEntry tc = some ⟨tc.source.store.nextVersion, txn.ops⟩ ∧
    ∀ t ∈ pre ++ post, owned as t → LeavesStore t

theorem Attempt.Conflicted.not_succeeded {a : Attempt} (h : a.Conflicted) : ¬ a.Succeeded := by
  rintro ⟨st', r', he', _, hok⟩
  obtain ⟨st, r, he, _, hcode⟩ := h
  obtain ⟨_, rfl⟩ := Ending.committed.inj (he.symm.trans he')
  rw [hcode] at hok
  cases hok

section attempted
variable {body : Body} {tr₀ tr : List Event} {s s' : State} {a : Attempt}

/-- The failure that is no conflict does not happen. -/
theorem Attempted.commit_code (hx : machine.Execution tr₀ s) (ha : Attempted body s tr s' a) {st : Status}
    {r : Reply} (he : a.ending = .committed st r) : r.status.code = .ok ∨ r.status.code = .conflict := by
  obtain ⟨_, _, _, _, _, w⟩ := ha.window st r he
  rcases w.verdict hx ha.path with ⟨_, hok, _⟩ | ⟨_, hok, _⟩ | ⟨hcode, _⟩
  · exact .inl hok
  · exact .inl hok
  · exact .inr hcode

theorem Attempted.leaves (hx : machine.Execution tr₀ s) (ha : Attempted body s tr s' a)
    (hno : ¬ (a.Succeeded ∧ a.txn.ops ≠ [])) : ∀ t ∈ tr, t.label.client = some a.txn.txnId → LeavesStore t := by
  by_cases hcom : ∃ st r, a.ending = .committed st r
  · obtain ⟨st, r, he⟩ := hcom
    obtain ⟨pre, tv, mid, tc, post, w⟩ := ha.window st r he
    have htc : LeavesStore tc := by
      rcases w.verdict hx ha.path with ⟨_, _, hl⟩ | ⟨hne, hok, _⟩ | ⟨_, hl, _⟩
      · exact hl
      · exact absurd ⟨⟨st, r, he, ha.accepted st r he, hok⟩, hne⟩ hno
      · exact hl
    intro t ht hown
    rw [w.split] at ht
    rw [← List.cons_append, ← List.append_assoc] at ht
    rcases List.mem_append.mp ht with hmem | hmem
    · exact w.silent t (List.mem_append_left post hmem) hown
    · rcases List.mem_cons.mp hmem with rfl | hmem
      · exact htc
      · exact w.silent t (List.mem_append_right _ hmem) hown
  · exact ha.silent (fun st r he => hcom ⟨st, r, he⟩)

theorem Attempted.applied (hx : machine.Execution tr₀ s) (ha : Attempted body s tr s' a) (hs : a.Succeeded)
    (hne : a.txn.ops ≠ []) :
    ∃ pre tc post, tr = pre ++ tc :: post ∧ tc.label = .commit a.txn.txnId false ∧
      tc.target.store = tc.source.store.append a.txn.ops ∧
      writeEntry tc = some ⟨tc.source.store.nextVersion, a.txn.ops⟩ ∧
      ∀ t ∈ pre ++ post, t.label.client = some a.txn.txnId → LeavesStore t := by
  obtain ⟨st, r, he, _, hok⟩ := hs
  obtain ⟨pre, tv, mid, tc, post, w⟩ := ha.window st r he
  rcases w.verdict hx ha.path with ⟨hnil, _⟩ | ⟨_, _, hstore, hentry⟩ | ⟨hcode, _⟩
  · exact absurd hnil hne
  · exact ⟨pre ++ tv :: mid, tc, post, by simp [w.split], w.commit, hstore, hentry, w.silent⟩
  · rw [hcode] at hok
    cases hok

end attempted

namespace Attempts
variable {fn : List (List Reply) → Body} {tr₀ tr : List Event} {s s' : State} {as early : List Attempt}
  {last : Attempt}

theorem unsnoc (h : Attempts fn s (early ++ [last]) tr s') : ∃ tr₁ tr₂ mid, tr = tr₁ ++ tr₂ ∧
    Attempts fn s early tr₁ mid ∧ Attempted (fn (early.map Attempt.replies)) mid tr₂ s' last := by
  generalize hl : early ++ [last] = whole at h
  cases h with
  | nil => simp at hl
  | snoc h ha =>
    obtain ⟨rfl, he⟩ := List.append_inj' hl rfl
    obtain rfl := (List.cons.inj he).1
    exact ⟨_, _, _, rfl, h, ha⟩

/-- Each attempt is one call of the body, and ends as the body says. -/
theorem answers (h : Attempts fn s as tr s') : ∀ pre a post, as = pre ++ a :: post →
    (fn (pre.map Attempt.replies)).answer a.replies = some a.ending.body := by
  induction h with
  | nil => simp
  | @snoc as b tr tr' s' s'' _ hb ih =>
    intro pre a post he
    rcases List.eq_nil_or_concat post with rfl | ⟨post', c, rfl⟩
    · obtain ⟨rfl, hone⟩ := List.append_inj' he rfl
      obtain rfl := (List.cons.inj hone).1
      exact hb.answer
    · rw [List.concat_eq_append, ← List.cons_append, ← List.append_assoc] at he
      exact ih pre a post' (List.append_inj' he rfl).1

theorem commit_code (hx : machine.Execution tr₀ s) (h : Attempts fn s as tr s') : ∀ a ∈ as, ∀ st r,
    a.ending = .committed st r → r.status.code = .ok ∨ r.status.code = .conflict := by
  induction h with
  | nil => simp
  | @snoc as b tr tr' s' s'' h hb ih =>
    intro a ha st r he
    rcases List.mem_append.mp ha with ha | ha
    · exact ih a ha st r he
    · obtain rfl := List.mem_singleton.mp ha
      exact hb.commit_code (hx.append h.path) he

/-- Attempts that do not succeed leave no write behind. -/
theorem leaves (hx : machine.Execution tr₀ s) (h : Attempts fn s as tr s') (hno : ∀ a ∈ as, ¬ a.Succeeded) :
    ∀ t ∈ tr, owned as t → LeavesStore t := by
  induction h with
  | nil => simp
  | @snoc as b tr tr' s' s'' h hb ih =>
    intro t ht hown
    rcases List.mem_append.mp ht with ht | ht
    · rw [h.owned_before hx hb ht] at hown
      exact ih (fun a ha => hno a (by simp [ha])) t ht hown
    · exact hb.leaves (hx.append h.path) (fun hs => hno b (by simp) hs.1) t ht ((h.owned_during hb ht).mp hown)

/-- When the last of them succeeds, its write set is all that they leave behind. -/
theorem applied (hx : machine.Execution tr₀ s) (h : Attempts fn s (early ++ [last]) tr s')
    (hearly : ∀ a ∈ early, a.Conflicted) (hs : last.Succeeded) : AppliedOnce (early ++ [last]) last.txn tr := by
  obtain ⟨tr₁, tr₂, mid, rfl, h₁, hlast⟩ := h.unsnoc
  have hbefore : ∀ t ∈ tr₁, owned (early ++ [last]) t → LeavesStore t := by
    intro t ht hown
    rw [h₁.owned_before hx hlast ht] at hown
    exact h₁.leaves hx (fun a ha => (hearly a ha).not_succeeded) t ht hown
  unfold AppliedOnce
  split
  · rename_i hnil
    intro t ht hown
    rcases List.mem_append.mp ht with ht | ht
    · exact hbefore t ht hown
    · exact hlast.leaves (hx.append h₁.path) (fun hh => hh.2 hnil) t ht ((h₁.owned_during hlast ht).mp hown)
  · rename_i hne
    obtain ⟨pre, tc, post, rfl, hl, hstore, hentry, hsil⟩ := hlast.applied (hx.append h₁.path) hs hne
    refine ⟨tr₁ ++ pre, tc, post, by simp, hl, hstore, hentry, fun t ht hown => ?_⟩
    rw [List.append_assoc] at ht
    rcases List.mem_append.mp ht with ht | ht
    · exact hbefore t ht hown
    · have hmem : t ∈ pre ++ tc :: post := ((List.sublist_cons_self tc post).append_left pre).subset ht
      exact hsil t ht ((h₁.owned_during hlast hmem).mp hown)

theorem unregistered (hx : machine.Execution tr₀ s) (h : Attempts fn s as tr s') :
    ∀ a ∈ as, ∀ sh, a.txn.txnId ∉ s'.manager.shards sh := by
  intro a ha sh
  rw [← AList.lookup_eq_none, (registered_of_execution (hx.append h.path)).registry]
  simp [State.entry, (h.gone a ha).2]

end Attempts

/-- A call refuses, or makes attempts until one does not conflict or none is left. -/
theorem runWithRetry_spec (env : Environment) (fn : List (List Reply) → Body) (maxAttempts : Int) (s : State) :
    ∃ out, runWithRetry env fn maxAttempts { sys := s } = some out ∧
      Attempts fn s out.attempts out.last.trace out.last.sys ∧
      (maxAttempts ≤ 0 ∧
          out = ⟨.returned (.invalidArgument "max_attempts must be positive"), [], { sys := s }⟩ ∨
        0 < maxAttempts ∧ ∃ early last, Stops maxAttempts.toNat out early last) := by
  unfold runWithRetry
  split
  · rename_i hle
    exact ⟨_, rfl, .nil, .inl ⟨hle, rfl⟩⟩
  · rename_i hlt
    obtain ⟨out, hout, hatts, hcase⟩ := retryLoop_spec env maxAttempts.toNat .ok (c := { sys := s }) .nil
      (by simp)
    refine ⟨out, hout, hatts, .inr ⟨not_le.mp hlt, ?_⟩⟩
    rcases hcase with ⟨hzero, _⟩ | ⟨early, last, hstop⟩
    · omega
    · rw [List.length_nil, Nat.zero_add] at hstop
      exact ⟨early, last, hstop⟩

/-- The loop reports OK exactly when its last commit succeeded. -/
theorem result_isOk_iff {body : Body} {tr : List Event} {s s' : State} {a : Attempt}
    (ha : Attempted body s tr s' a) : a.ending.result.isOk = true ↔ a.Succeeded := by
  cases he : a.ending with
  | threw => simp [Ending.result, Result.isOk, Attempt.Succeeded, he]
  | declined st =>
    simpa [Ending.result, Result.isOk, Attempt.Succeeded, he, Status.isOk] using ha.declined st he
  | committed st r =>
    by_cases hcode : r.status.code = .ok
    · simp [Ending.result, Result.isOk, Attempt.Succeeded, he, hcode, ha.accepted st r he, Status.isOk]
    · simp [Ending.result, Result.isOk, Attempt.Succeeded, he, hcode, Status.isOk]

/-- `RunWithRetry` always ends. It applies the write set of its last attempt once, and
that only when it reports OK; otherwise it leaves no write behind. A status of the
body that is not OK comes back as it is, the commit fails by conflict only, and
nothing it began stays registered. -/
theorem runWithRetry_applies_once {tr : List Event} {s : State} (h : machine.Execution tr s)
    (env : Environment) (fn : List (List Reply) → Body) (maxAttempts : Int) :
    ∃ out, runWithRetry env fn maxAttempts { sys := s } = some out ∧
      machine.Path s out.last.trace out.last.sys ∧
      (maxAttempts ≤ 0 → out.attempts = [] ∧ out.last.trace = [] ∧
        out.result = .returned (.invalidArgument "max_attempts must be positive")) ∧
      (0 < maxAttempts → ∃ early last, out.attempts = early ++ [last] ∧
        (out.attempts.length : Int) ≤ maxAttempts ∧ (∀ a ∈ early, a.Conflicted) ∧
        (out.result.isOk ↔ last.Succeeded) ∧
        (last.Succeeded → AppliedOnce out.attempts last.txn out.last.trace) ∧
        (¬ last.Succeeded → ∀ t ∈ out.last.trace, owned out.attempts t → LeavesStore t) ∧
        (∀ st, last.ending = .declined st → st.code ≠ .ok ∧ out.result = .returned st) ∧
        (last.ending = .threw → out.result = .threw)) ∧
      (∀ pre a post, out.attempts = pre ++ a :: post →
        (fn (pre.map Attempt.replies)).answer a.replies = some a.ending.body) ∧
      (∀ a ∈ out.attempts, ∀ st r, a.ending = .committed st r →
        r.status.code = .ok ∨ r.status.code = .conflict) ∧
      ∀ a ∈ out.attempts, ∀ sh, a.txn.txnId ∉ out.last.sys.manager.shards sh := by
  obtain ⟨out, hout, hatts, hcase⟩ := runWithRetry_spec env fn maxAttempts s
  refine ⟨out, hout, hatts.path, ?_, ?_, hatts.answers, hatts.commit_code h, hatts.unregistered h⟩
  · intro hle
    rcases hcase with ⟨_, rfl⟩ | ⟨hlt, _⟩
    · exact ⟨rfl, rfl, rfl⟩
    · omega
  · intro hlt
    rcases hcase with ⟨hle, _⟩ | ⟨_, early, last, hstop⟩
    · omega
    · have hcount := hstop.count
      have hres := hstop.result
      rw [hstop.attempts] at hatts ⊢
      obtain ⟨_, _, _, _, _, hlast⟩ := hatts.unsnoc
      refine ⟨early, last, rfl, ?_, hstop.conflicted, ?_, hatts.applied h hstop.conflicted, ?_, ?_, ?_⟩
      · rw [List.length_append, List.length_singleton]
        omega
      · rw [hres]
        exact result_isOk_iff hlast
      · intro hno
        refine hatts.leaves h (List.forall_mem_append.mpr ⟨?_, List.forall_mem_singleton.mpr hno⟩)
        exact fun a ha => (hstop.conflicted a ha).not_succeeded
      · intro st he
        exact ⟨hlast.declined st he, by rw [hres, he]; rfl⟩
      · intro he
        rw [hres, he]
        rfl

/-- A body that reads a key and overwrites it. -/
private def overwriteKey : Body :=
  .call (.get "k") (fun _ => .call (.put "k" "updated") (fun r => .ret r.status))

/-- Somebody else overwrites the key after the first attempt has read it. -/
private def interloper (taken : Nat) : List Action :=
  if taken = 4 then [.write (.put "k" "interloper")] else []

private theorem overwritten_once :
    (runWithRetry interloper (fun _ => overwriteKey) 2 { sys := machine.final [.write (.put "k" "v0")] }).map
      (fun out => (out.result, out.attempts.map (fun a => a.txn.snapshotVersion), writeLog out.last.trace,
        (writeLog (out.last.trace.filter (fun t => !owned out.attempts t))).length)) =
      some (.returned .ok, [1, 2], [⟨2, [⟨"k", some "interloper"⟩]⟩, ⟨3, [⟨"k", some "updated"⟩]⟩], 1) := by
  decide

theorem runWithRetry_applies_once_interloper :
    ∃ tr s out, machine.Execution tr s ∧ runWithRetry interloper (fun _ => overwriteKey) 2 { sys := s } = some out ∧
      writeLog out.last.trace = [⟨2, [⟨"k", some "interloper"⟩]⟩, ⟨3, [⟨"k", some "updated"⟩]⟩] ∧
      ∃ early last, out.attempts = early ++ [last] ∧ early.length = 1 ∧ (∀ a ∈ early, a.Conflicted) ∧
        AppliedOnce out.attempts last.txn out.last.trace := by
  have hx := Machine.scheduled (M := machine) [.write (.put "k" "v0")] (by decide)
  obtain ⟨out, hout, _, _, hpos, _⟩ := runWithRetry_applies_once hx interloper (fun _ => overwriteKey) 2
  have hrun := overwritten_once
  rw [hout] at hrun
  simp only [Option.map_some, Option.some.injEq, Prod.mk.injEq] at hrun
  obtain ⟨hres, hsnaps, hlog, _⟩ := hrun
  obtain ⟨early, last, hatts, _, hconf, hok, happ, _⟩ := hpos (by decide)
  have hlen := congrArg List.length hsnaps
  rw [hatts, List.length_map, List.length_append, List.length_singleton] at hlen
  exact ⟨_, _, out, hx, hout, hlog, early, last, hatts, Nat.succ.inj hlen, hconf,
    happ (hok.mp (by rw [hres]; rfl))⟩

/-- Between its snapshot and its commit somebody else wrote a key of its write set. -/
def PaidFor (as : List Attempt) (a : Attempt) (tr : List Event) : Prop :=
  ∃ pre tv mid tc post, tr = pre ++ tv :: (mid ++ tc :: post) ∧ tv.label = .readVersion a.txn.txnId ∧
    tv.source.store.currentVersion = a.txn.snapshotVersion ∧ tc.label = .commit a.txn.txnId false ∧
    ∃ t ∈ mid, owned as t = false ∧ ∃ e, writeEntry t = some e ∧ ∃ key ∈ a.txn.writeSet, e.Touches key

/-- The version counter counts the successful writes. -/
theorem currentVersion_path {tr₀ tr : List Event} {s s' : State} (hx : machine.Execution tr₀ s)
    (h : machine.Path s tr s') : s'.store.currentVersion = s.store.currentVersion + (writeLog tr).length := by
  rw [(represents_of_execution (hx.append h)).currentVersion_eq, (represents_of_execution hx).currentVersion_eq,
    writeLog, List.filterMap_append, List.length_append]
  rfl

section snapshots
variable {body : Body} {tr₀ tr : List Event} {s s' : State} {a : Attempt}

theorem Attempted.snapshot_ge (hx : machine.Execution tr₀ s) (ha : Attempted body s tr s' a) :
    s.store.currentVersion ≤ a.txn.snapshotVersion := by
  obtain ⟨pre, tv, rest, rfl, hsnap⟩ := ha.opened
  rw [← hsnap]
  exact currentVersion_mono hx ha.path.around.1

theorem Attempted.snapshot_lt (hx : machine.Execution tr₀ s) (ha : Attempted body s tr s' a)
    (hc : a.Conflicted) : a.txn.snapshotVersion < s'.store.currentVersion := by
  obtain ⟨st, r, he, _, hcode⟩ := hc
  obtain ⟨pre, tv, mid, tc, post, w⟩ := ha.window st r he
  have hp := ha.path
  rw [w.split, ← List.cons_append, ← List.append_assoc] at hp
  obtain ⟨hpre, ht, hpost⟩ := hp.around
  exact (w.overtaken hx ha.path hcode).1.trans_le (currentVersion_mono (hx.append hpre) (.cons ht hpost))

end snapshots

namespace Attempts
variable {fn : List (List Reply) → Body} {tr₀ tr : List Event} {s s' : State} {as early : List Attempt}
  {last : Attempt}

/-- Each conflict lies between two snapshots. -/
theorem conflicts_rise (hx : machine.Execution tr₀ s) (h : Attempts fn s as tr s')
    (hconf : ∀ a ∈ as, a.Conflicted) :
    as.Pairwise (fun a b => a.txn.snapshotVersion < b.txn.snapshotVersion) ∧
      (∀ a ∈ as, a.txn.snapshotVersion < s'.store.currentVersion) ∧
      s.store.currentVersion + as.length ≤ s'.store.currentVersion := by
  induction h with
  | nil => exact ⟨.nil, by simp, le_rfl⟩
  | @snoc as b tr tr' s' s'' h hb ih =>
    obtain ⟨hpw, hlt, hcount⟩ := ih (fun a ha => hconf a (by simp [ha]))
    have hge := hb.snapshot_ge (hx.append h.path)
    have hup := hb.snapshot_lt (hx.append h.path) (hconf b (by simp))
    refine ⟨List.pairwise_append.mpr ⟨hpw, List.pairwise_singleton _ _, fun a ha c hc => ?_⟩, fun a ha => ?_, ?_⟩
    · obtain rfl := List.mem_singleton.mp hc
      exact (hlt a ha).trans_le hge
    · rcases List.mem_append.mp ha with ha | ha
      · have := hlt a ha
        omega
      · exact List.mem_singleton.mp ha ▸ hup
    · rw [List.length_append, List.length_singleton]
      omega

theorem snapshots_rise (hx : machine.Execution tr₀ s) (h : Attempts fn s (early ++ [last]) tr s')
    (hearly : ∀ a ∈ early, a.Conflicted) :
    (early ++ [last]).Pairwise (fun a b => a.txn.snapshotVersion < b.txn.snapshotVersion) := by
  obtain ⟨_, _, _, _, h₁, hlast⟩ := h.unsnoc
  obtain ⟨hpw, hlt, _⟩ := h₁.conflicts_rise hx hearly
  refine List.pairwise_append.mpr ⟨hpw, List.pairwise_singleton _ _, fun a ha b hb => ?_⟩
  obtain rfl := List.mem_singleton.mp hb
  exact (hlt a ha).trans_le (hlast.snapshot_ge (hx.append h₁.path))

theorem paid (hx : machine.Execution tr₀ s) (h : Attempts fn s as tr s') :
    ∀ a ∈ as, a.Conflicted → PaidFor as a tr := by
  induction h with
  | nil => simp
  | @snoc as b tr tr' s' s'' h hb ih =>
    intro a ha hc
    rcases List.mem_append.mp ha with ha | ha
    · obtain ⟨pre, tv, mid, tc, post, rfl, hread, hsnap, hl, t, ht, hown, hw⟩ := ih a ha hc
      refine ⟨pre, tv, mid, tc, post ++ tr', by simp, hread, hsnap, hl, t, ht, ?_, hw⟩
      rw [h.owned_before hx hb (by simp [ht]), hown]
    · obtain rfl := List.mem_singleton.mp ha
      obtain ⟨st, r, he, _, hcode⟩ := hc
      obtain ⟨pre, tv, mid, tc, post, w⟩ := hb.window st r he
      obtain ⟨_, t, ht, hne, hw⟩ := w.overtaken (hx.append h.path) hb.path hcode
      refine ⟨tr ++ pre, tv, mid, tc, post, by simp [w.split], w.read, w.snapshot, w.commit, t, ht, ?_, hw⟩
      rw [← Bool.not_eq_true, h.owned_during hb (by simp [w.split, ht])]
      exact hne

/-- Without a success all writes of the run are others'. -/
theorem writeLog_others (hx : machine.Execution tr₀ s) (h : Attempts fn s as tr s')
    (hno : ∀ a ∈ as, ¬ a.Succeeded) : writeLog (tr.filter (fun t => !owned as t)) = writeLog tr := by
  unfold writeLog
  rw [List.filterMap_filter]
  refine List.filterMap_congr (fun t ht => ?_)
  by_cases hown : owned as t
  · simp [hown, (h.leaves hx hno t ht hown).2]
  · simp [hown]

end Attempts

/-- A call runs out of attempts only against as many writes of others. -/
theorem Stops.foreign_writes {fn : List (List Reply) → Body} {tr₀ : List Event} {s : State} {total : Nat}
    {out : Outcome} {early : List Attempt} {last : Attempt} (hx : machine.Execution tr₀ s)
    (hstop : Stops total out early last) (h : Attempts fn s out.attempts out.last.trace out.last.sys)
    (hlast : last.Conflicted) :
    total ≤ (writeLog (out.last.trace.filter (fun t => !owned out.attempts t))).length := by
  have hall : ∀ a ∈ out.attempts, a.Conflicted := by
    rw [hstop.attempts]
    exact List.forall_mem_append.mpr ⟨hstop.conflicted, List.forall_mem_singleton.mpr hlast⟩
  have hlen : out.attempts.length = total := by
    rw [hstop.attempts, List.length_append, List.length_singleton, hstop.exhausted hlast]
  have hcount := (h.conflicts_rise hx hall).2.2
  rw [h.writeLog_others hx (fun a ha => (hall a ha).not_succeeded)]
  have := currentVersion_path hx h.path
  omega

/-- Every retry is paid for by somebody else's success: snapshots rise from attempt to
attempt, each conflict has a foreign write to its write set in its own window, and
so fewer foreign writes than attempts leave only the body's own conflict to report. -/
theorem retries_paid_for {tr : List Event} {s : State} (h : machine.Execution tr s) (env : Environment)
    (fn : List (List Reply) → Body) (maxAttempts : Int) :
    ∃ out, runWithRetry env fn maxAttempts { sys := s } = some out ∧
      out.attempts.Pairwise (fun a b => a.txn.snapshotVersion < b.txn.snapshotVersion) ∧
      (∀ a ∈ out.attempts, a.Conflicted → PaidFor out.attempts a out.last.trace) ∧
      ∀ m : Nat, (writeLog (out.last.trace.filter (fun t => !owned out.attempts t))).length ≤ m →
        (m : Int) < maxAttempts → ∀ st, out.result = .returned st → st.code = .conflict →
          ∃ a ∈ out.attempts, a.ending = .declined st := by
  obtain ⟨out, hout, hatts, hcase⟩ := runWithRetry_spec env fn maxAttempts s
  refine ⟨out, hout, ?_, hatts.paid h, ?_⟩
  · rcases hcase with ⟨_, rfl⟩ | ⟨_, early, last, hstop⟩
    · exact .nil
    · rw [hstop.attempts] at hatts ⊢
      exact hatts.snapshots_rise h hstop.conflicted
  · intro m hm hlt st hres hcode
    rcases hcase with ⟨hle, _⟩ | ⟨_, early, last, hstop⟩
    · omega
    · rw [hstop.result] at hres
      cases he : last.ending with
      | threw => simp [he, Ending.result] at hres
      | declined st' =>
        obtain rfl : st' = st := by simpa [he, Ending.result] using hres
        exact ⟨last, by simp [hstop.attempts], he⟩
      | committed st' r =>
        have hconf : last.Conflicted := by
          rw [hstop.attempts] at hatts
          obtain ⟨_, _, _, _, _, hlast⟩ := hatts.unsnoc
          refine ⟨st', r, he, hlast.accepted st' r he, ?_⟩
          simp only [he, Ending.result, Result.returned.injEq] at hres
          split at hres
          · rw [← hres] at hcode
            cases hcode
          · rw [hres, hcode]
        have := hstop.foreign_writes h hatts hconf
        omega

theorem retries_paid_for_interloper :
    ∃ tr s out, machine.Execution tr s ∧ runWithRetry interloper (fun _ => overwriteKey) 2 { sys := s } = some out ∧
      out.attempts.map (fun a => a.txn.snapshotVersion) = [1, 2] ∧
      (∀ a ∈ out.attempts, a.Conflicted → PaidFor out.attempts a out.last.trace) ∧
      ∀ st, out.result = .returned st → st.code = .conflict → ∃ a ∈ out.attempts, a.ending = .declined st := by
  have hx := Machine.scheduled (M := machine) [.write (.put "k" "v0")] (by decide)
  obtain ⟨out, hout, _, hpaid, hbound⟩ := retries_paid_for hx interloper (fun _ => overwriteKey) 2
  have hrun := overwritten_once
  rw [hout] at hrun
  simp only [Option.map_some, Option.some.injEq, Prod.mk.injEq] at hrun
  obtain ⟨_, hsnaps, _, hwrites⟩ := hrun
  exact ⟨_, _, out, hx, hout, hsnaps, hpaid, hbound 1 hwrites.le (by decide)⟩

end MvccLite.Threads
