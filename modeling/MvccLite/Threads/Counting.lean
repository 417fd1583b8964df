import MvccLite.Threads.Mirror

/-! `ActiveTransactionCount` among everybody else's sections. It takes one shard's lock
after the other, so what it returns need not be the count at any one moment; but it
counts nobody twice, nobody who was never there, and everybody who was there throughout. -/
namespace MvccLite.Threads.Counting
open Library TransactionManager

/-- A call that has summed up the shards below `next`. -/
structure Tally where
  next : Nat := 0
  total : Nat := 0

/-- Callers are indexed like passes; a caller without a tally is not inside the call. -/
structure State where
  sections : Threads.State := {}
  tallies : Nat → Option Tally := fun _ => none

inductive Action where
  | other (a : Threads.Action)
  | call (q : Nat)
  | countShard (q : Nat)
  | finish (q : Nat)
  deriving DecidableEq

inductive Output where
  | other (r : Option Reply)
  | silent
  | counted (total : Nat)

namespace State

def setTally (s : State) (q : Nat) (tally : Option Tally) : State :=
  { s with tallies := Function.update s.tallies q tally }

def step (s : State) : Action → Option (State × Output)
  | .other a => (s.sections.step a).map (fun out => ({ s with sections := out.1 }, .other out.2))
  | .call q =>
    match s.tallies q with
    | none => some (s.setTally q (some {}), .silent)
    | some _ => none
  | .countShard q =>
    match s.tallies q with
    | none => none
    | some tally =>
      if h : tally.next < kNumShards then
        let size := (s.sections.manager.shards ⟨tally.next, h⟩).entries.length
        some (s.setTally q (some { next := tally.next + 1, total := tally.total + size }), .silent)
      else none
  | .finish q =>
    match s.tallies q with
    | none => none
    | some tally => if tally.next = kNumShards then some (s.setTally q none, .counted tally.total) else none

end State

def machine : Machine State Action Output where
  init := {}
  step := State.step

abbrev Event := Transition State Action Output

/-- Everything a step can do. -/
inductive Fires (s : State) : Action → Output → State → Prop
  | other {a : Threads.Action} {r : Option Reply} {s' : Threads.State} (h : s.sections.step a = some (s', r)) :
      Fires s (.other a) (.other r) { s with sections := s' }
  | call {q : Nat} (h : s.tallies q = none) : Fires s (.call q) .silent (s.setTally q (some {}))
  | countShard {q : Nat} {tally : Tally} (h : s.tallies q = some tally) (hn : tally.next < kNumShards) :
      Fires s (.countShard q) .silent (s.setTally q (some { next := tally.next + 1, total :=
        tally.total + (s.sections.manager.shards ⟨tally.next, hn⟩).entries.length }))
  | finish {q : Nat} {tally : Tally} (h : s.tallies q = some tally) (hn : tally.next = kNumShards) :
      Fires s (.finish q) (.counted tally.total) (s.setTally q none)

theorem step_fires {s s' : State} {a : Action} {o : Output} (h : s.step a = some (s', o)) : Fires s a o s' := by
  cases a with
  | other a =>
    obtain ⟨⟨s₁, r⟩, hs, he⟩ := Option.map_eq_some_iff.mp h
    obtain ⟨rfl, rfl⟩ := Prod.mk.inj he
    exact .other hs
  | call q =>
    cases hq : s.tallies q with
    | none =>
      simp only [State.step, hq, Option.some.injEq, Prod.mk.injEq] at h
      obtain ⟨rfl, rfl⟩ := h
      exact .call hq
    | some => simp [State.step, hq] at h
  | countShard q =>
    cases hq : s.tallies q with
    | none => simp [State.step, hq] at h
    | some tally =>
      simp only [State.step, hq] at h
      split at h
      · rename_i hn
        obtain ⟨rfl, rfl⟩ := Prod.mk.inj (Option.some.inj h)
        exact .countShard hq hn
      · cases h
  | finish q =>
    cases hq : s.tallies q with
    | none => simp [State.step, hq] at h
    | some tally =>
      simp only [State.step, hq] at h
      split at h
      · rename_i hn
        obtain ⟨rfl, rfl⟩ := Prod.mk.inj (Option.some.inj h)
        exact .finish hq hn
      · cases h

theorem taken_fires {t : Event} (h : machine.Taken t) : Fires t.source t.label t.output t.target := step_fires h

/-- The section that a step takes, if it takes one. -/
def inner (t : Event) : Option Threads.Event :=
  match t.label, t.output with
  | .other a, .other r => some ⟨t.source.sections, a, r, t.target.sections⟩
  | _, _ => none

/-- The other sections of a run are a run of their own. -/
theorem sections_of_execution {tr : List Event} {s : State} (h : machine.Execution tr s) :
    Threads.machine.Execution (tr.filterMap inner) s.sections := by
  refine h.project (N := Threads.machine) State.sections inner ?_ ?_
  · rintro ⟨s, a, o, s'⟩ u ht hu
    have hf := taken_fires ht
    dsimp only at hf
    cases hf with
    | other hs =>
      obtain rfl := Option.some.inj hu
      exact ⟨hs, rfl, rfl⟩
    | call | countShard | finish => cases hu
  · rintro ⟨s, a, o, s'⟩ ht hu
    have hf := taken_fires ht
    dsimp only at hf
    cases hf with
    | other hs => cases hu
    | call | countShard | finish => rfl

/-- The registry holds the transaction. -/
def State.Holds (s : State) (id : Nat) : Prop := id ∈ s.sections.manager.shards (shardFor id)

/-- What a call has counted since it began. -/
structure Counts (q : Nat) (tr : List Event) (tally : Tally) (ids : List Nat) : Prop where
  nodup : ids.Nodup
  length : ids.length = tally.total
  behind : ∀ id ∈ ids, (shardFor id).val < tally.next
  present : ∀ id ∈ ids, ∃ t ∈ tr, t.source.Holds id
  complete : ∀ id, (shardFor id).val < tally.next → (∀ t ∈ tr, t.source.Holds id) → id ∈ ids

namespace Counts
variable {q : Nat} {tr : List Event} {t : Event} {tally : Tally} {ids : List Nat}

private theorem frame (hc : Counts q tr tally ids) (t : Event) : Counts q (tr ++ [t]) tally ids where
  nodup := hc.nodup
  length := hc.length
  behind := hc.behind
  present id hid := by
    obtain ⟨u, hu, hold⟩ := hc.present id hid
    exact ⟨u, by simp [hu], hold⟩
  complete id hlt hall := hc.complete id hlt (fun u hu => hall u (by simp [hu]))

/-- The keys of the next shard are new, and all who are registered there are among them. -/
private theorem shard (hi : Threads.Registered t.source.sections) (hn : tally.next < kNumShards)
    (hc : Counts q tr tally ids) :
    Counts q (tr ++ [t]) { next := tally.next + 1, total := tally.total +
      (t.source.sections.manager.shards ⟨tally.next, hn⟩).entries.length }
      (ids ++ (t.source.sections.manager.shards ⟨tally.next, hn⟩).keys) := by
  have home {id : Nat} (hid : id ∈ (t.source.sections.manager.shards ⟨tally.next, hn⟩).keys) :
      (⟨tally.next, hn⟩ : Fin kNumShards) = shardFor id ∧ t.source.Holds id := by
    have hm := AList.mem_keys.mpr hid
    have hs := ((mem_shard_iff hi).mp hm).1
    exact ⟨hs, by rw [State.Holds, ← hs]; exact hm⟩
  have hat {id : Nat} (hs : (⟨tally.next, hn⟩ : Fin kNumShards) = shardFor id) : (shardFor id).val = tally.next := by
    rw [← hs]
  refine ⟨List.nodup_append.mpr ⟨hc.nodup, AList.keys_nodup _, fun id hid id' hid' he => ?_⟩, ?_, fun id hid => ?_,
    fun id hid => ?_, fun id hlt hall => ?_⟩
  · subst he
    have hbehind := hc.behind id hid
    have hnow := hat (home hid').1
    omega
  · simp [hc.length, AList.keys, List.keys]
  · rcases List.mem_append.mp hid with hid | hid
    · exact Nat.lt_succ_of_lt (hc.behind id hid)
    · exact Nat.lt_succ_of_le (hat (home hid).1).le
  · rcases List.mem_append.mp hid with hid | hid
    · obtain ⟨u, hu, hold⟩ := hc.present id hid
      exact ⟨u, by simp [hu], hold⟩
    · exact ⟨t, by simp, (home hid).2⟩
  · by_cases hown : (shardFor id).val = tally.next
    · have hs : shardFor id = ⟨tally.next, hn⟩ := Fin.ext hown
      have hhold := hall t (by simp)
      rw [State.Holds, hs] at hhold
      exact List.mem_append_right _ (AList.mem_keys.mp hhold)
    · refine List.mem_append_left _ (hc.complete id ?_ (fun u hu => hall u (by simp [hu])))
      exact lt_of_le_of_ne (Nat.lt_succ_iff.mp hlt) hown

end Counts

/-- From its first step to its return a call counts as described. -/
private theorem counts_of_path {pre mid : List Event} {s₀ s : State} {q : Nat} (h₀ : machine.Execution pre s₀)
    (hq : s₀.tallies q = some {}) (h : machine.Path s₀ mid s) (hno : ∀ t ∈ mid, t.label ≠ .finish q) :
    ∃ tally ids, s.tallies q = some tally ∧ Counts q mid tally ids := by
  refine h.admitted (I := fun mid s => ∃ tally ids, s.tallies q = some tally ∧ Counts q mid tally ids) hno ?_ ?_
  · exact ⟨{}, [], hq, ⟨List.nodup_nil, rfl, by simp, by simp, fun id hlt => absurd hlt (Nat.not_lt_zero _)⟩⟩
  · rintro mid ⟨s, a, o, s'⟩ hp ht hne ⟨tally, ids, htally, hc⟩
    have hi := Threads.registered_of_execution (sections_of_execution (h₀.append hp))
    have hf := taken_fires ht
    dsimp only at htally hf hne hi ⊢
    have keep {q' : Nat} {x : Option Tally} (hne : q' ≠ q) : (s.setTally q' x).tallies q = some tally :=
      (Function.update_of_ne (Ne.symm hne) ..).trans htally
    cases hf with
    | other hs => exact ⟨tally, ids, htally, hc.frame _⟩
    | @call q' hq' =>
      refine ⟨tally, ids, keep (fun he => ?_), hc.frame _⟩
      rw [he, htally] at hq'
      cases hq'
    | @countShard q' tally' hq' hn =>
      by_cases he : q' = q
      · subst he
        obtain rfl : tally' = tally := Option.some.inj (hq'.symm.trans htally)
        exact ⟨_, _, Function.update_self .., hc.shard hi hn⟩
      · exact ⟨tally, ids, keep he, hc.frame _⟩
    | @finish q' tally' hq' hn => exact ⟨tally, ids, keep (fun he => hne (by rw [he])), hc.frame _⟩

/-- A call of `ActiveTransactionCount`, from `tc` to `tr`, among any sections of any threads and
any other such calls, returns the number of some transactions, each counted once: only ones that
were registered at some moment of the call, and all that were registered throughout. -/
theorem count_between_bounds {pre mid : List Event} {tc tr : Event} {s : State} {q n : Nat}
    (h : machine.Execution (pre ++ tc :: mid ++ [tr]) s) (hcall : tc.label = .call q)
    (hno : ∀ t ∈ mid, t.label ≠ .finish q) (hret : tr.label = .finish q) (hn : tr.output = .counted n) :
    ∃ ids : List Nat, ids.Nodup ∧ ids.length = n ∧
      (∀ id ∈ ids, ∃ t ∈ mid, t.source.Holds id) ∧
      ∀ id, (∀ t ∈ mid, t.source.Holds id) → id ∈ ids := by
  obtain ⟨hbefore, hlast, _⟩ := h.unsnoc
  obtain ⟨hpre, htc, hmid⟩ := hbefore.around
  have hstart : tc.target.tallies q = some {} := by
    have hf := taken_fires htc
    rw [hcall] at hf
    generalize tc.output = o, tc.target = s' at hf
    cases hf with
    | call => exact Function.update_self ..
  obtain ⟨tally, ids, htally, hc⟩ := counts_of_path (hpre.snoc htc) hstart hmid hno
  have hf := taken_fires hlast
  rw [hret, hn] at hf
  generalize hout : Output.counted n = o at hf
  generalize tr.target = s' at hf
  cases hf with
  | @finish _ tally' hq' hfull =>
    obtain rfl : tally' = tally := Option.some.inj (hq'.symm.trans htally)
    obtain rfl := Output.counted.inj hout
    exact ⟨ids, hc.nodup, hc.length, hc.present,
      fun id hall => hc.complete id (by rw [hfull]; exact (shardFor id).isLt) hall⟩

/-- The sections of `Begin`, when it draws `id`. -/
private def begins (id : Nat) : List Action :=
  [.other .fetchTxnId, .other (.placeholder id), .other (.readVersion id), .other (.refine id)]

/-- The count has gone past shard 2 when transactions 2 and 3 begin there and in the next one. -/
private def overtakenCount : List Action :=
  [[.call 0], List.replicate 3 (.countShard 0), begins 2, begins 3, List.replicate 13 (.countShard 0)].flatten

theorem count_between_bounds_overtaken :
    ∃ pre tc mid tr s, machine.Execution (pre ++ tc :: mid ++ [tr]) s ∧ tc.label = .call 0 ∧
      tr.output = .counted 2 ∧ s.sections.manager.activeTransactionCount = 3 ∧
      ∃ ids : List Nat, ids.Nodup ∧ ids.length = 2 ∧ 1 ∈ ids := by
  have h₀ : machine.Execution (machine.trace (begins 1)) (machine.final (begins 1)) :=
    Machine.scheduled (begins 1) (by decide)
  obtain ⟨tc, mid, s, hrun, hcall, hno, htally, hcount, hhold⟩ : ∃ tc mid s,
      machine.run (machine.final (begins 1)) overtakenCount = some (tc :: mid, s) ∧ tc.label = .call 0 ∧
      (∀ t ∈ mid, t.label ≠ .finish 0) ∧ s.tallies 0 = some ⟨16, 2⟩ ∧
      s.sections.manager.activeTransactionCount = 3 ∧
      ∀ t ∈ mid, 1 ∈ (t.source.sections.manager.shards (shardFor 1)).keys :=
    ⟨_, _, _, rfl, rfl, by decide, rfl, by decide, by decide⟩
  have hret : machine.Taken ⟨s, .finish 0, .counted 2, s.setTally 0 none⟩ := by
    change s.step (.finish 0) = _
    simp [State.step, htally, kNumShards]
  have h := (h₀.append (Machine.run_path hrun)).snoc hret
  obtain ⟨ids, hnodup, hlen, _, hall⟩ := count_between_bounds h hcall hno rfl rfl
  exact ⟨_, tc, mid, _, _, h, hcall, rfl, hcount, ids, hnodup, hlen,
    hall 1 (fun t ht => AList.mem_keys.mpr (hhold t ht))⟩

end MvccLite.Threads.Counting
