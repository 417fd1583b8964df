import Mathlib.Data.List.Induction
import MvccLite.Store.Histories

/-! The store as a replay of its log of successful writes. The log is what the
store is for: it never forgets. The table keeps enough of it to answer every
reader at or above the largest collection boundary so far. -/
namespace MvccLite
open Library VersionStore

/-- A successful write call: the version it was assigned and its operations in order. -/
structure LoggedWrite where
  version : Nat
  ops : List WriteOp
  deriving DecidableEq, Repr

/-- The write names the key. -/
def LoggedWrite.Touches (w : LoggedWrite) (key : String) : Prop := ∃ op ∈ w.ops, op.key = key

abbrev WriteLog := List LoggedWrite

namespace WriteLog

/-- Every logged operation on the key, oldest first, with its version. -/
def history (log : WriteLog) (key : String) : List VersionedValue :=
  log.flatMap (fun w => entriesFor key w.version w.ops)

/-- The last logged operation on the key among writes with version at most `asOf`. -/
def lastOp (log : WriteLog) (asOf : Nat) (key : String) : Option VersionedValue :=
  lastAt VersionedValue.version asOf (log.history key)

/-- The value put by that operation, if it is a put. -/
def valueAt (log : WriteLog) (asOf : Nat) (key : String) : Option String :=
  (log.lastOp asOf key).bind VersionedValue.value

/-- The value put by the last logged operation on the key, if it is a put. -/
def latest (log : WriteLog) (key : String) : Option String :=
  (log.history key).getLast?.bind VersionedValue.value

/-- The i-th write has version i, counting from one. -/
def Numbered (log : WriteLog) : Prop := log.map LoggedWrite.version = List.range' 1 log.length

theorem history_append (log log' : WriteLog) (key : String) :
    history (log ++ log') key = history log key ++ history log' key := List.flatMap_append

theorem mem_history {log : WriteLog} {key : String} {e : VersionedValue} :
    e ∈ history log key ↔ ∃ w ∈ log, e.version = w.version ∧ ⟨key, e.value⟩ ∈ w.ops := by
  simp only [history, List.mem_flatMap, mem_entriesFor]

theorem Numbered.concat {log : WriteLog} (h : Numbered log) (ops : List WriteOp) :
    Numbered (log ++ [⟨log.length + 1, ops⟩]) := by
  simp only [Numbered, List.map_append, List.map_cons, List.map_nil, List.length_append,
    List.length_singleton] at h ⊢
  rw [h, List.range'_concat]
  simp [Nat.add_comm]

theorem Numbered.version_eq {log : WriteLog} (h : Numbered log) {i : Nat} {w : LoggedWrite}
    (hw : log[i]? = some w) : w.version = i + 1 := by
  have hm : (log.map LoggedWrite.version)[i]? = some w.version := by simp [hw]
  have hi : i < log.length := (List.getElem?_eq_some_iff.mp hw).1
  rw [h, List.getElem?_range' hi] at hm
  have := Option.some.inj hm
  omega

theorem Numbered.bounds {log : WriteLog} (h : Numbered log) {w : LoggedWrite} (hw : w ∈ log) :
    1 ≤ w.version ∧ w.version ≤ log.length := by
  obtain ⟨i, hi⟩ := List.mem_iff_getElem?.mp hw
  have hv := h.version_eq hi
  have := (List.getElem?_eq_some_iff.mp hi).1
  omega

theorem Numbered.take {log : WriteLog} (h : Numbered log) (n : Nat) : Numbered (log.take n) := by
  unfold Numbered at *
  rw [List.map_take, h, List.length_take]
  rcases Nat.le_total n log.length with hn | hn
  · rw [List.take_range'_of_length_ge hn, Nat.min_eq_left hn]
  · rw [List.take_range'_of_length_le hn, Nat.min_eq_right hn]

theorem Numbered.pairwise {log : WriteLog} (h : Numbered log) :
    log.Pairwise (fun a b => a.version < b.version) := by
  have hp : (log.map LoggedWrite.version).Pairwise (· < ·) := by
    rw [h]
    exact List.pairwise_lt_range'
  exact List.pairwise_map.mp hp

/-- Equal versions mean the same write. -/
theorem Numbered.eq_of_version {log : WriteLog} (h : Numbered log) {w w' : LoggedWrite}
    (hw : w ∈ log) (hw' : w' ∈ log) (he : w.version = w'.version) : w = w' := by
  obtain ⟨i, hi⟩ := List.mem_iff_getElem?.mp hw
  obtain ⟨j, hj⟩ := List.mem_iff_getElem?.mp hw'
  have := h.version_eq hi
  have := h.version_eq hj
  obtain rfl : i = j := by omega
  exact Option.some.inj (hi.symm.trans hj)

/-- A version is in the first part of a log that is long enough to reach it. -/
theorem Numbered.mem_left {log log' : WriteLog} (h : Numbered (log ++ log')) {w : LoggedWrite}
    (hw : w ∈ log ++ log') (hle : w.version ≤ log.length) : w ∈ log := by
  obtain ⟨i, hi⟩ := List.mem_iff_getElem?.mp hw
  have hv := h.version_eq hi
  rw [List.getElem?_append_left (by omega)] at hi
  exact List.mem_of_getElem? hi

private theorem entriesFor_version {key : String} {v : Nat} {ops : List WriteOp} {e : VersionedValue}
    (he : e ∈ entriesFor key v ops) : e.version = v := (mem_entriesFor.mp he).1

private theorem entriesFor_sorted (key : String) (v : Nat) (ops : List WriteOp) :
    Sorted (entriesFor key v ops) :=
  List.pairwise_of_forall_mem_list (fun a ha b hb => by
    rw [entriesFor_version ha, entriesFor_version hb])

theorem Numbered.sorted {log : WriteLog} (h : Numbered log) (key : String) : Sorted (log.history key) := by
  have hp := h.pairwise
  clear h
  induction log with
  | nil => exact List.Pairwise.nil
  | cons w log ih =>
    obtain ⟨hw, hp⟩ := List.pairwise_cons.mp hp
    refine List.pairwise_append.mpr ⟨entriesFor_sorted key _ _, ih hp, ?_⟩
    intro a ha b hb
    obtain ⟨w', hw', hb', _⟩ := mem_history.mp hb
    rw [entriesFor_version ha, hb']
    exact (hw w' hw').le

/-- With no key repeated inside a write, versions along a history strictly increase. -/
theorem Numbered.strictly_sorted {log : WriteLog} (h : Numbered log)
    (hn : ∀ w ∈ log, (w.ops.map WriteOp.key).Nodup) (key : String) :
    (log.history key).Pairwise (fun a b => a.version < b.version) := by
  have hp := h.pairwise
  clear h
  induction log with
  | nil => exact List.Pairwise.nil
  | cons w log ih =>
    obtain ⟨hw, hp⟩ := List.pairwise_cons.mp hp
    refine List.pairwise_append.mpr ⟨?_, ih (fun w' hw' => hn w' (by simp [hw'])) hp, ?_⟩
    · have hd : (w.ops.filter (fun op => op.key = key)).Pairwise (fun a b => a.key ≠ b.key) :=
        (List.pairwise_map.mp (hn w (by simp))).sublist List.filter_sublist
      refine List.pairwise_map.mpr (hd.imp_of_mem (fun ha hb hne => ?_))
      simp only [List.mem_filter, decide_eq_true_eq] at ha hb
      exact absurd (ha.2.trans hb.2.symm) hne
    · intro a ha b hb
      obtain ⟨w', hw', hb', _⟩ := mem_history.mp hb
      rw [entriesFor_version ha, hb']
      exact hw w' hw'

/-- Entries at or below `n` are those of the first `n` writes. -/
theorem Numbered.filter_history {log : WriteLog} (h : Numbered log) (n : Nat) (key : String) :
    (log.history key).filter (fun e => e.version ≤ n) = history (log.take n) key := by
  have hlo : ∀ e ∈ history (log.take n) key, e.version ≤ n := by
    intro e he
    obtain ⟨w, hw, hv, _⟩ := mem_history.mp he
    have := ((h.take n).bounds hw).2
    rw [List.length_take] at this
    omega
  have hhi : ∀ e ∈ history (log.drop n) key, ¬ e.version ≤ n := by
    intro e he
    obtain ⟨w, hw, hv, _⟩ := mem_history.mp he
    obtain ⟨i, hi⟩ := List.mem_iff_getElem?.mp hw
    rw [List.getElem?_drop] at hi
    have := h.version_eq hi
    omega
  conv_lhs => rw [← List.take_append_drop n log, history_append, List.filter_append]
  rw [List.filter_eq_self.mpr (by simpa using hlo), List.filter_eq_nil_iff.mpr (by simpa using hhi),
    List.append_nil]

/-- Reading as of `n` is reading the newest value after the first `n` writes. -/
theorem Numbered.valueAt_eq {log : WriteLog} (h : Numbered log) (n : Nat) (key : String) :
    log.valueAt n key = latest (log.take n) key := by
  rw [valueAt, lastOp, lastAt, h.filter_history, latest]

/-- Later writes do not change what was visible as of an earlier version. -/
theorem Numbered.valueAt_append {log log' : WriteLog} (h : Numbered (log ++ log')) {n : Nat}
    (hn : n ≤ log.length) (key : String) : valueAt (log ++ log') n key = valueAt log n key := by
  have hl : Numbered log := by simpa using h.take log.length
  rw [h.valueAt_eq, hl.valueAt_eq, List.take_append_of_le_length hn]

theorem Numbered.valueAt_take {log : WriteLog} (h : Numbered log) (n : Nat) (key : String) :
    log.valueAt n key = valueAt (log.take n) n key := by
  rw [h.valueAt_eq, (h.take n).valueAt_eq, List.take_take, Nat.min_self]

/-- With no write to the key after `n`, reading as of `n` is reading the newest value. -/
theorem valueAt_untouched {log : WriteLog} {n : Nat} {key : String}
    (h : ∀ w ∈ log, w.Touches key → w.version ≤ n) : log.valueAt n key = log.latest key := by
  have hall : (log.history key).filter (fun e => e.version ≤ n) = log.history key := by
    refine List.filter_eq_self.mpr (fun e he => ?_)
    obtain ⟨w, hw, hv, hop⟩ := mem_history.mp he
    simpa [hv] using h w hw ⟨_, hop, rfl⟩
  rw [valueAt, lastOp, lastAt, hall, latest]

theorem Numbered.valueAt_length {log : WriteLog} (h : Numbered log) (key : String) :
    log.valueAt log.length key = log.latest key :=
  valueAt_untouched (fun _ hw _ => (h.bounds hw).2)

/-- The newest value after one more write: its last operation on the key, if it has one. -/
theorem latest_concat (log : WriteLog) (version : Nat) (ops : List WriteOp) (key : String) :
    latest (log ++ [⟨version, ops⟩]) key =
      ((entriesFor key version ops).getLast?.map VersionedValue.value).getD (log.latest key) := by
  have hone : history [⟨version, ops⟩] key = entriesFor key version ops := by simp [history]
  rw [latest, history_append, hone, List.getLast?_append, latest]
  cases (entriesFor key version ops).getLast? <;> rfl

/-- Some write touched the key after `n`, read off the last entry of its history. -/
theorem Numbered.touched_iff {log : WriteLog} (h : Numbered log) (n : Nat) (key : String) :
    (∃ e ∈ (log.history key).getLast?, n < e.version) ↔ ∃ w ∈ log, w.Touches key ∧ n < w.version := by
  constructor
  · rintro ⟨e, he, hlt⟩
    obtain ⟨w, hw, hv, hop⟩ := mem_history.mp (List.mem_of_getLast? he)
    exact ⟨w, hw, ⟨_, hop, rfl⟩, hv ▸ hlt⟩
  · rintro ⟨w, hw, ⟨op, hop, rfl⟩, hlt⟩
    have hm : ⟨w.version, op.value⟩ ∈ log.history op.key := mem_history.mpr ⟨w, hw, rfl, hop⟩
    have hne := List.ne_nil_of_mem hm
    refine ⟨_, List.getLast?_eq_some_getLast hne, ?_⟩
    have hs := h.sorted op.key
    rw [← List.dropLast_append_getLast hne] at hm hs
    rcases List.mem_append.mp hm with hm | hm
    · exact hlt.trans_le ((List.pairwise_append.mp hs).2.2 _ hm _ (by simp))
    · rw [← List.mem_singleton.mp hm]
      exact hlt

end WriteLog

/-- The largest of a list of collection boundaries, zero when there is none. -/
def highest (bs : List Nat) : Nat := bs.foldl max 0

@[simp] theorem highest_nil : highest [] = 0 := rfl

@[simp] theorem highest_concat (bs : List Nat) (b : Nat) : highest (bs ++ [b]) = max (highest bs) b := by
  simp [highest]

@[simp] theorem highest_cons (b : Nat) (bs : List Nat) : highest (b :: bs) = max b (highest bs) := by
  induction bs using List.reverseRecOn with
  | nil => simp [highest]
  | append_singleton bs c ih => rw [← List.cons_append, highest_concat, ih, highest_concat, max_assoc]

theorem highest_le {bs : List Nat} {c : Nat} (h : ∀ b ∈ bs, b ≤ c) : highest bs ≤ c := by
  induction bs using List.reverseRecOn with
  | nil => exact Nat.zero_le c
  | append_singleton bs b ih =>
    rw [highest_concat]
    exact max_le (ih (fun x hx => h x (by simp [hx]))) (h b (by simp))

/-- The table answers for the log to every reader at or above `b`. -/
structure Represents (log : WriteLog) (b : Nat) (s : VersionStore) : Prop where
  numbered : log.Numbered
  next : s.nextVersion = log.length + 1
  keys : ∀ w ∈ log, ∀ op ∈ w.ops, op.key ≠ ""
  present : ∀ key h, s.table.lookup key = some h → h ≠ []
  trimmed : ∀ key, Trimmed VersionedValue.version VersionedValue.Dead b (log.history key) (s.history key)

namespace Represents
variable {log : WriteLog} {b : Nat} {s : VersionStore}

theorem empty : Represents [] 0 {} where
  numbered := rfl
  next := rfl
  keys := by simp
  present := by simp
  trimmed _ := Trimmed.refl _ _

theorem mono {c : Nat} (h : Represents log b s) (hbc : b ≤ c) : Represents log c s :=
  { h with trimmed := fun key => (h.trimmed key).mono hbc }

/-- A reader at the current version is safe from every boundary. -/
theorem clamp (h : Represents log b s) : Represents log log.length s :=
  { h with trimmed := fun key => (h.trimmed key).clamp (fun _ he => by
      obtain ⟨w, hw, hv, _⟩ := WriteLog.mem_history.mp he
      rw [hv]
      exact (h.numbered.bounds hw).2) }

theorem currentVersion_eq (h : Represents log b s) : s.currentVersion = log.length := by
  rw [currentVersion, h.next, Nat.add_sub_cancel]

/-- A stored history is a suffix of the logged one. -/
theorem suffix (h : Represents log b s) (key : String) : s.history key <:+ log.history key := by
  obtain ⟨gone, he, _⟩ := h.trimmed key
  exact ⟨gone, he.symm⟩

theorem sorted (h : Represents log b s) (key : String) : Sorted (s.history key) :=
  (h.numbered.sorted key).sublist (h.suffix key).sublist

theorem history_eq_nil (h : Represents log b s) {key : String} :
    s.history key = [] ↔ s.table.lookup key = none := by
  constructor
  · intro he
    by_contra hl
    obtain ⟨hist, hl⟩ := Option.ne_none_iff_exists'.mp hl
    rw [history, hl] at he
    exact h.present key hist hl he
  · intro hl
    rw [history, hl]
    rfl

theorem lookup_emptyKey (h : Represents log b s) : s.table.lookup "" = none := by
  rw [← h.history_eq_nil, List.eq_nil_iff_forall_not_mem]
  intro e he
  obtain ⟨w, hw, _, hop⟩ := WriteLog.mem_history.mp ((h.suffix "").subset he)
  exact h.keys w hw _ hop rfl

/-- Nothing is stored under the empty key. -/
theorem latestValue_emptyKey (h : Represents log b s) : s.latestValue "" = none := by
  rw [latestValue, history, h.lookup_emptyKey]
  rfl

theorem visibleAsOf_eq (h : Represents log b s) {asOf : Nat} (hb : b ≤ asOf) (key : String) :
    s.visibleAsOf asOf key = log.valueAt asOf key := by
  unfold visibleAsOf WriteLog.valueAt WriteLog.lastOp
  rcases (h.trimmed key).lastAt_eq hb with he | ⟨hn, e, he, hd⟩
  · rw [he]
  · rw [hn, Option.mem_def.mp he]
    exact hd.symm

/-- A reader below the bound sees the right value or none. -/
theorem visibleAsOf_cases (h : Represents log b s) (asOf : Nat) (key : String) :
    s.visibleAsOf asOf key = log.valueAt asOf key ∨ s.visibleAsOf asOf key = none ∧ asOf < b := by
  rcases Nat.lt_or_ge asOf b with hlt | hb
  · have hseen : lastAt VersionedValue.version asOf (s.history key) = lastAt VersionedValue.version asOf (log.history key) ∨
        lastAt VersionedValue.version asOf (s.history key) = none := lastAt_suffix (h.suffix key)
    rcases hseen with he | hn
    · exact .inl (by rw [visibleAsOf, WriteLog.valueAt, WriteLog.lastOp, he])
    · exact .inr ⟨by rw [visibleAsOf, hn]; rfl, hlt⟩
  · exact .inl (h.visibleAsOf_eq hb key)

/-- No sweep can hide what is still current: with no write to the key after `asOf`, a reader there
sees the newest value. -/
theorem visibleAsOf_untouched (h : Represents log b s) {asOf : Nat} {key : String}
    (hlast : ∀ w ∈ log, w.Touches key → w.version ≤ asOf) : s.visibleAsOf asOf key = log.latest key := by
  have hclamp := (h.trimmed key).clamp (c := asOf) (fun e he => by
    obtain ⟨w, hw, hv, hop⟩ := WriteLog.mem_history.mp he
    rw [hv]
    exact hlast w hw ⟨_, hop, rfl⟩)
  rw [← WriteLog.valueAt_untouched hlast, visibleAsOf, WriteLog.valueAt, WriteLog.lastOp]
  rcases hclamp.lastAt_eq le_rfl with he | ⟨hn, e, he, hd⟩
  · rw [he]
  · rw [hn, Option.mem_def.mp he]
    exact hd.symm

theorem latestValue_eq (h : Represents log b s) (key : String) : s.latestValue key = log.latest key := by
  unfold latestValue WriteLog.latest
  rcases (h.trimmed key).getLast_eq with he | ⟨hn, e, he, hd, _⟩
  · rw [he]
  · rw [hn, Option.mem_def.mp he]
    exact hd.symm

theorem getAsOf_observed (h : Represents log b s) {asOf : Nat} (hb : b ≤ asOf) (key : String) :
    (s.getAsOf key asOf).observed = if key = "" then .refused else .ofValue (log.valueAt asOf key) := by
  rw [VersionStore.getAsOf_observed s key asOf (h.sorted key), h.visibleAsOf_eq hb]

theorem get_observed (h : Represents log b s) (key : String) :
    (s.get key).observed = if key = "" then .refused else .ofEntry (log.history key).getLast? := by
  rw [VersionStore.get_observed]
  rcases (h.trimmed key).getLast_eq with he | ⟨hn, ⟨n, x⟩, he, hd, _⟩
  · rw [he]
  · obtain rfl : x = none := hd
    rw [hn, Option.mem_def.mp he]
    rfl

/-- What validation finds was written after the snapshot, whatever has been collected. -/
theorem written_of_writtenSince (h : Represents log b s) {snapshot : Nat} {key : String}
    (hw : s.writtenSince snapshot key = true) : ∃ w ∈ log, w.Touches key ∧ snapshot < w.version := by
  obtain ⟨e, he, hlt⟩ := (VersionStore.writtenSince_iff s snapshot key).mp hw
  obtain ⟨w, hw, hv, hop⟩ := WriteLog.mem_history.mp ((h.suffix key).subset (List.mem_of_getLast? he))
  exact ⟨w, hw, ⟨_, hop, rfl⟩, hv ▸ hlt⟩

/-- Validation at a snapshot the table still answers for sees every later write. -/
theorem writtenSince_iff (h : Represents log b s) {snapshot : Nat} (hb : b ≤ snapshot) (key : String) :
    s.writtenSince snapshot key = true ↔ ∃ w ∈ log, w.Touches key ∧ snapshot < w.version := by
  rw [VersionStore.writtenSince_iff, (h.trimmed key).newer_iff hb, h.numbered.touched_iff]

theorem append (h : Represents log b s) {ops : List WriteOp} (hk : ∀ op ∈ ops, op.key ≠ "") :
    Represents (log ++ [⟨s.nextVersion, ops⟩]) b (s.append ops) where
  numbered := by
    rw [h.next]
    exact h.numbered.concat ops
  next := by simp [h.next]
  keys w hw op hop := by
    rcases List.mem_append.mp hw with hw | hw
    · exact h.keys w hw op hop
    · obtain rfl := List.mem_singleton.mp hw
      exact hk op hop
  present key hist hl := by
    rw [lookup_append] at hl
    split at hl
    · exact h.present key hist hl
    · rename_i hne
      obtain rfl := Option.some.inj hl
      simp [hne]
  trimmed key := by
    rw [VersionStore.history_append, WriteLog.history_append]
    simpa [WriteLog.history] using (h.trimmed key).append (entriesFor key s.nextVersion ops)

private theorem trimmed_collect (h : Represents log b s) (c : Nat) (key : String) :
    Trimmed VersionedValue.version VersionedValue.Dead (max b c) (log.history key)
      ((s.collectGarbage c).1.history key) := by
  rw [history, lookup_collectGarbage]
  cases hl : s.table.lookup key with
  | none =>
    have he : s.history key = [] := h.history_eq_nil.mpr hl
    simpa [he] using (h.trimmed key).mono (le_max_left b c)
  | some hist =>
    have hh : s.history key = hist := by rw [history, hl]; rfl
    have hr := (h.trimmed key).retained (le_max_left b c) (le_max_right b c) (h.sorted key)
    rw [hh] at hr
    rw [Option.bind_some, collectHistory_eq (hh ▸ h.sorted key)]
    split
    · rename_i hd
      obtain ⟨hone, e, he, hdead, hle⟩ := hd
      obtain ⟨x, hx⟩ := List.length_eq_one_iff.mp hone
      rw [hx] at hr he
      obtain rfl : x = e := by simpa using he
      exact hr.drop_dead (hle.trans (le_max_right b c)) hdead
    · exact hr

/-- Collecting at any boundary costs only the readers below it. -/
theorem collect (h : Represents log b s) (c : Nat) : Represents log (max b c) (s.collectGarbage c).1 where
  numbered := h.numbered
  next := h.next
  keys := h.keys
  present key hist hl := by
    rw [lookup_collectGarbage] at hl
    obtain ⟨hist', hl', hc⟩ := Option.bind_eq_some_iff.mp hl
    have hh : s.history key = hist' := by rw [history, hl']; rfl
    rw [collectHistory_eq (hh ▸ h.sorted key)] at hc
    split at hc
    · cases hc
    · obtain rfl := Option.some.inj hc
      exact retained_ne_nil (h.present key hist' hl')
  trimmed key := trimmed_collect h c key

end Represents
end MvccLite
