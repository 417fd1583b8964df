import Mathlib.Algebra.Group.Nat.Defs
import MvccLite.Library.Machine
import MvccLite.Store.Writes

/-! Runs of the store with its 64-bit version counter. While the counter has not
wrapped, the table is a replay of the log of successful writes. -/
namespace MvccLite
open Library VersionStore

inductive StoreCall where
  | write (c : WriteCall)
  | collectGarbage (safeBoundary : Nat)
  deriving DecidableEq, Repr

inductive StoreOutput where
  | reply (r : Reply)
  | swept (stats : GCStats)
  deriving DecidableEq, Repr

/-- The increment of `next_version_` is modulo `2^64`. -/
def VersionStore.wrap (s : VersionStore) : VersionStore := { s with nextVersion := s.nextVersion % 2 ^ 64 }

/-- `next_version_ - 1` on 64 bits. -/
def VersionStore.currentVersion64 (s : VersionStore) : Nat := (s.nextVersion + (2 ^ 64 - 1)) % 2 ^ 64

/-- The store under any sequence of writing and collecting calls. -/
def storeMachine : Machine VersionStore StoreCall StoreOutput where
  init := {}
  step s
    | .write c => some ((s.write c).1.wrap, .reply (s.write c).2)
    | .collectGarbage b => some ((s.collectGarbage b).1.wrap, .swept (s.collectGarbage b).2)

abbrev StoreTrace := List (Transition VersionStore StoreCall StoreOutput)

def storeEntry (t : Transition VersionStore StoreCall StoreOutput) : Option LoggedWrite :=
  match t.label, t.output with
  | .write c, .reply r => loggedWrite c.ops r
  | _, _ => none

def storeBoundary (t : Transition VersionStore StoreCall StoreOutput) : Option Nat :=
  match t.label with
  | .write _ => none
  | .collectGarbage b => some b

/-- The successful write calls of a run, each with the version its reply reports. -/
def storeLog (tr : StoreTrace) : WriteLog := tr.filterMap storeEntry

/-- The boundaries passed to the collector during a run. -/
def storeBoundaries (tr : StoreTrace) : List Nat := tr.filterMap storeBoundary

private theorem wrap_of_lt {s : VersionStore} (h : s.nextVersion < 2 ^ 64) : s.wrap = s := by
  unfold VersionStore.wrap
  rw [Nat.mod_eq_of_lt h]

/-- The replay invariant of a run that has not exhausted the version counter. -/
theorem storeMachine_represents {tr : StoreTrace} {s : VersionStore} (h : storeMachine.Execution tr s)
    (hw : (storeLog tr).length < 2 ^ 64 - 1) : Represents (storeLog tr) (highest (storeBoundaries tr)) s := by
  induction h with
  | nil => exact Represents.empty
  | @snoc tr t hp ht ih =>
    simp only [storeLog, storeBoundaries, filterMap_concat] at hw ih ⊢
    rw [List.length_append] at hw
    obtain ⟨source, label, output, target⟩ := t
    have hr : Represents _ _ source := ih (by omega)
    cases label with
    | write c =>
      simp only [Machine.Taken, storeMachine, Option.some.injEq, Prod.mk.injEq] at ht
      obtain ⟨rfl, rfl⟩ := ht
      have hn := hr.write c
      rw [wrap_of_lt]
      · simpa [storeBoundary, storeEntry] using hn
      · rw [hn.next, List.length_append]
        simp only [storeEntry] at hw
        omega
    | collectGarbage b =>
      simp only [Machine.Taken, storeMachine, Option.some.injEq, Prod.mk.injEq] at ht
      obtain ⟨rfl, rfl⟩ := ht
      have hn := hr.collect b
      rw [wrap_of_lt]
      · simpa [storeBoundary, storeEntry] using hn
      · rw [hn.next]
        omega

/-- Until the counter is exhausted, the 64-bit store goes through the stores of the model. -/
theorem storeMachine_reachable {tr : StoreTrace} {s : VersionStore} (h : storeMachine.Execution tr s)
    (hw : (storeLog tr).length < 2 ^ 64 - 1) : s.Reachable := by
  induction h with
  | nil => exact .empty
  | @snoc tr t hp ht ih =>
    have hnext := (storeMachine_represents (Machine.Path.snoc hp ht) hw).next
    simp only [storeLog, filterMap_concat, List.length_append] at hw hnext ih
    obtain ⟨source, label, output, target⟩ := t
    have hs : source.Reachable := ih (by omega)
    have hr := storeMachine_represents hp (by simp only [storeLog]; omega)
    cases label with
    | write c =>
      simp only [Machine.Taken, storeMachine, Option.some.injEq, Prod.mk.injEq] at ht
      obtain ⟨rfl, rfl⟩ := ht
      have hn := (hr.write c).next
      simp only [storeEntry, storeLog, List.length_append] at hw hn
      rw [wrap_of_lt (by omega)]
      exact hs.write c
    | collectGarbage b =>
      simp only [Machine.Taken, storeMachine, Option.some.injEq, Prod.mk.injEq] at ht
      obtain ⟨rfl, rfl⟩ := ht
      have hn := (hr.collect b).next
      simp only [storeLog] at hn
      rw [wrap_of_lt (by omega)]
      exact hs.collect b

/-- Until the counter is exhausted, a write call that reports OK takes the next version and
reports it, and one that reports anything else leaves the store as it is. -/
theorem storeMachine_write {pre post : StoreTrace} {t : Transition VersionStore StoreCall StoreOutput}
    {s : VersionStore} (h : storeMachine.Execution (pre ++ t :: post) s)
    (hw : (storeLog (pre ++ t :: post)).length < 2 ^ 64 - 1) {c : WriteCall} {r : Reply} (hl : t.label = .write c)
    (ho : t.output = .reply r) :
    (r.status.code = .ok → r.version = some ((storeLog pre).length + 1)) ∧
      (r.status.code ≠ .ok → t.target = t.source) := by
  obtain ⟨hpre, ht, _⟩ := h.around
  have hlen : (storeLog pre).length ≤ (storeLog (pre ++ t :: post)).length := by
    simp [storeLog, List.filterMap_append]
  have hr := storeMachine_represents hpre (by omega)
  obtain ⟨source, label, output, target⟩ := t
  obtain rfl : label = .write c := hl
  obtain rfl : output = .reply r := ho
  simp only [Machine.Taken, storeMachine, Option.some.injEq, Prod.mk.injEq, StoreOutput.reply.injEq] at ht
  obtain ⟨rfl, rfl⟩ := ht
  constructor
  · intro hok
    rw [source.write_ok hok, VersionStore.written, hr.next]
  · intro hf
    rw [source.write_failed hf]
    exact wrap_of_lt (by rw [hr.next]; omega)

/-- A logged write is a call of the run that reports OK and the version of the entry. -/
theorem mem_storeLog {tr : StoreTrace} {s : VersionStore} (h : storeMachine.Execution tr s)
    (hlen : (storeLog tr).length < 2 ^ 64 - 1) {w : LoggedWrite} (hw : w ∈ storeLog tr) :
    ∃ t ∈ tr, ∃ c r, t.label = .write c ∧ t.output = .reply r ∧ r.status.code = .ok ∧
      r.version = some w.version ∧ c.ops = w.ops := by
  obtain ⟨t, ht, he⟩ := List.mem_filterMap.mp hw
  unfold storeEntry at he
  split at he
  · rename_i c r hl ho
    obtain ⟨hok, hentry⟩ := Option.ite_none_right_eq_some.mp he
    obtain rfl := Option.some.inj hentry
    obtain ⟨pre, post, rfl⟩ := List.append_of_mem ht
    have hv := (storeMachine_write h hlen hl ho).1 hok
    exact ⟨t, ht, c, r, hl, ho, hok, by rw [hv]; rfl, rfl⟩
  · cases he

/-- The store is the replay of its write log: the i-th write that reports OK has
version i and reports it, a failed one changes nothing, reads at or above every
boundary report the last logged operation, and the latest read reports the last
one of all with its version. -/
theorem store_replays_write_log {tr : StoreTrace} {s : VersionStore} (h : storeMachine.Execution tr s)
    (hw : (storeLog tr).length < 2 ^ 64 - 1) :
    (storeLog tr).map LoggedWrite.version = List.range' 1 (storeLog tr).length ∧
    (∀ pre t post c r, tr = pre ++ t :: post → t.label = .write c → t.output = .reply r →
      (r.status.code = .ok → r.version = some ((storeLog pre).length + 1)) ∧
      (r.status.code ≠ .ok → t.target = t.source)) ∧
    s.currentVersion64 = (storeLog tr).length ∧
    (∀ key asOf, key ≠ "" → (∀ b ∈ storeBoundaries tr, b ≤ asOf) →
      (∀ v, (s.getAsOf key asOf).status.code = .ok ∧ (s.getAsOf key asOf).value = some v ↔
        ∃ e ∈ (storeLog tr).lastOp asOf key, e.value = some v) ∧
      ((¬ ∃ e ∈ (storeLog tr).lastOp asOf key, e.value ≠ none) →
        (s.getAsOf key asOf).status.code = .notFound)) ∧
    ∀ key, key ≠ "" →
      (∀ v n, (s.get key).status.code = .ok ∧ (s.get key).value = some v ∧ (s.get key).version = some n ↔
        ((storeLog tr).history key).getLast? = some ⟨n, some v⟩) ∧
      ((¬ ∃ e ∈ ((storeLog tr).history key).getLast?, e.value ≠ none) →
        (s.get key).status.code = .notFound) := by
  have hr := storeMachine_represents h hw
  refine ⟨hr.numbered, ?_, ?_, ?_, ?_⟩
  · rintro pre t post c r rfl hl ho
    exact storeMachine_write h hw hl ho
  · rw [currentVersion64, hr.next]
    omega
  · intro key asOf hk hb
    have ho := hr.getAsOf_observed (highest_le hb) key
    rw [if_neg hk, WriteLog.valueAt] at ho
    obtain ⟨hfound, hnone⟩ := Reply.of_ofValue ho
    refine ⟨fun v => (hfound v).trans Option.bind_eq_some_iff, fun hno => hnone ?_⟩
    simpa [Option.bind_eq_none_iff] using hno
  · intro key hk
    have ho := hr.get_observed key
    rw [if_neg hk] at ho
    exact Reply.of_ofEntry ho

/-- A key is created, overwritten inside one batch, deleted and swept away, with
a refused write between: four versions, none of them lost to the sweep. -/
private def churn : List StoreCall :=
  [.write (.put "a" "1"), .write (.applyBatch [⟨"b", some "2"⟩, ⟨"b", some "3"⟩]), .write (.delete "c"),
    .write (.delete "a"), .collectGarbage 9, .write (.put "a" "4")]

theorem store_replays_write_log_churn :
    ∃ tr s, storeMachine.Execution tr s ∧ storeBoundaries tr = [9] ∧ s.currentVersion64 = 4 ∧
      (∃ t ∈ tr, t.label = .write (.delete "c") ∧ t.target = t.source) ∧
      (∃ t ∈ tr, ∃ r, t.label = .write (.put "a" "4") ∧ t.output = .reply r ∧ r.version = some 4) ∧
      ((s.get "b").status.code = .ok ∧ (s.get "b").value = some "3" ∧ (s.get "b").version = some 2) := by
  have h : storeMachine.Execution (storeMachine.trace churn) (storeMachine.final churn) :=
    Machine.scheduled churn (by decide)
  obtain ⟨t₁, t₂, t₃, t₄, t₅, t₆, r₃, r₆, htr, hl₃, ho₃, hf₃, hl₆, ho₆, hok₆, hlog⟩ :
      ∃ t₁ t₂ t₃ t₄ t₅ t₆ r₃ r₆, storeMachine.trace churn = [t₁, t₂] ++ t₃ :: [t₄, t₅, t₆] ∧
        t₃.label = .write (.delete "c") ∧ t₃.output = .reply r₃ ∧ r₃.status.code = .notFound ∧
        t₆.label = .write (.put "a" "4") ∧ t₆.output = .reply r₆ ∧ r₆.status.code = .ok ∧
        (storeLog [t₁, t₂, t₃, t₄, t₅]).length = 3 :=
    ⟨_, _, _, _, _, _, _, _, rfl, rfl, rfl, rfl, rfl, rfl, rfl, rfl⟩
  obtain ⟨_, hwrite, hversion, _, hget⟩ := store_replays_write_log h (by decide)
  refine ⟨_, _, h, by decide, hversion.trans (by decide), ?_, ?_, ((hget "b" (by decide)).1 "3" 2).mpr (by decide)⟩
  · exact ⟨t₃, by simp [htr], hl₃, (hwrite _ t₃ _ _ r₃ htr hl₃ ho₃).2 (by simp [hf₃])⟩
  · have hlast := (hwrite [t₁, t₂, t₃, t₄, t₅] t₆ [] _ r₆ htr hl₆ ho₆).1 hok₆
    exact ⟨t₆, by simp [htr], r₆, hl₆, ho₆, hlast.trans (by rw [hlog])⟩

/-- The representation invariant of a store in use. -/
structure VersionStore.WellFormed (s : VersionStore) : Prop where
  keys : ∀ key h, s.table.lookup key = some h → key ≠ ""
  nonempty : ∀ key h, s.table.lookup key = some h → h ≠ []
  bounds : ∀ key h, s.table.lookup key = some h → ∀ e ∈ h, 1 ≤ e.version ∧ e.version ≤ s.nextVersion - 1
  sorted : ∀ key h, s.table.lookup key = some h → h.Pairwise (fun a b => a.version ≤ b.version)
  searchable : ∀ key h, s.table.lookup key = some h →
    ∀ v, Partitioned (fun e : VersionedValue => decide (e.version ≤ v)) h

private theorem history_of_lookup {s : VersionStore} {key : String} {h : List VersionedValue}
    (hl : s.table.lookup key = some h) : s.history key = h := by
  rw [VersionStore.history, hl]
  rfl

theorem Represents.wellFormed {log : WriteLog} {b : Nat} {s : VersionStore} (hr : Represents log b s) :
    s.WellFormed where
  keys key h hl he := by
    rw [he, hr.lookup_emptyKey] at hl
    cases hl
  nonempty := hr.present
  bounds key h hl e he := by
    rw [← history_of_lookup hl] at he
    obtain ⟨w, hw, hv, _⟩ := WriteLog.mem_history.mp ((hr.suffix key).subset he)
    rw [hv, hr.next]
    exact hr.numbered.bounds hw
  sorted key h hl := history_of_lookup hl ▸ hr.sorted key
  searchable key h hl v := (history_of_lookup hl ▸ hr.sorted key : Sorted h).partitioned v

/-- Every reachable store is well formed; histories strictly increase unless a
write repeated a key; and entries of two keys share a version only when one
batch call wrote both. -/
theorem store_representation_invariant {tr : StoreTrace} {s : VersionStore}
    (h : storeMachine.Execution tr s) (hw : (storeLog tr).length < 2 ^ 64 - 1) :
    s.WellFormed ∧
    ((∀ w ∈ storeLog tr, (w.ops.map WriteOp.key).Nodup) →
      ∀ key hist, s.table.lookup key = some hist → hist.Pairwise (fun a b => a.version < b.version)) ∧
    ∀ key hist e key' hist' e', key ≠ key' →
      s.table.lookup key = some hist → e ∈ hist → s.table.lookup key' = some hist' → e' ∈ hist' →
      e.version = e'.version →
      ∃ t ∈ tr, ∃ c r, t.label = .write c ∧ t.output = .reply r ∧ c.IsBatch ∧ r.status.code = .ok ∧
        r.version = some e.version ∧ ⟨key, e.value⟩ ∈ c.ops ∧ ⟨key', e'.value⟩ ∈ c.ops := by
  have hr := storeMachine_represents h hw
  refine ⟨hr.wellFormed, ?_, ?_⟩
  · intro hn key hist hl
    rw [← history_of_lookup hl]
    exact (hr.numbered.strictly_sorted hn key).sublist (hr.suffix key).sublist
  · intro key hist e key' hist' e' hne hl he hl' he' hv
    rw [← history_of_lookup hl] at he
    rw [← history_of_lookup hl'] at he'
    obtain ⟨w, hmem, hev, hop⟩ := WriteLog.mem_history.mp ((hr.suffix key).subset he)
    obtain ⟨w', hmem', hev', hop'⟩ := WriteLog.mem_history.mp ((hr.suffix key').subset he')
    obtain rfl := hr.numbered.eq_of_version hmem hmem' (by rw [← hev, ← hev', hv])
    obtain ⟨t, ht, c, r, hlab, hout, hc, hrv, hops⟩ := mem_storeLog h hw hmem
    rw [← hops] at hop hop'
    refine ⟨t, ht, c, r, hlab, hout, ?_, hc, by rw [hrv, hev], hop, hop'⟩
    cases c with
    | put k v =>
      simp only [WriteCall.ops, List.mem_singleton, WriteOp.mk.injEq] at hop hop'
      exact hne (hop.1.trans hop'.1.symm)
    | delete k =>
      simp only [WriteCall.ops, List.mem_singleton, WriteOp.mk.injEq] at hop hop'
      exact hne (hop.1.trans hop'.1.symm)
    | applyBatch ops => trivial
    | applyBatchIfNoConflict ops snapshot want => trivial

/-- A batch writes one key twice and another once, and a sweep leaves it alone. -/
private def sharedBatch : List StoreCall :=
  [.write (.put "a" "0"), .write (.put "a" "1"),
    .write (.applyBatch [⟨"b", some "2"⟩, ⟨"b", some "3"⟩, ⟨"c", some "4"⟩]), .collectGarbage 2]

theorem store_representation_invariant_sharedBatch :
    ∃ tr s, storeMachine.Execution tr s ∧ s.WellFormed ∧ s.table.lookup "a" = some [⟨2, some "1"⟩] ∧
      s.table.lookup "b" = some [⟨3, some "2"⟩, ⟨3, some "3"⟩] ∧ s.table.lookup "c" = some [⟨3, some "4"⟩] ∧
      ∃ t ∈ tr, ∃ c r, t.label = .write c ∧ t.output = .reply r ∧ c.IsBatch ∧ r.status.code = .ok ∧
        r.version = some 3 ∧ ⟨"b", some "3"⟩ ∈ c.ops ∧ ⟨"c", some "4"⟩ ∈ c.ops := by
  have h : storeMachine.Execution (storeMachine.trace sharedBatch) (storeMachine.final sharedBatch) :=
    Machine.scheduled sharedBatch (by decide)
  have hb : (storeMachine.final sharedBatch).table.lookup "b" = some [⟨3, some "2"⟩, ⟨3, some "3"⟩] := by decide
  have hc : (storeMachine.final sharedBatch).table.lookup "c" = some [⟨3, some "4"⟩] := by decide
  obtain ⟨hwf, _, hshared⟩ := store_representation_invariant h (by decide)
  exact ⟨_, _, h, hwf, by decide, hb, hc,
    hshared "b" _ ⟨3, some "3"⟩ "c" _ ⟨3, some "4"⟩ (by decide) hb (by simp) hc (by simp) rfl⟩

end MvccLite
