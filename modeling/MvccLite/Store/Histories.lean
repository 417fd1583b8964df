import MvccLite.Library.StampedHistory
import MvccLite.Store.VersionStore

/-! What each store call reads and changes, in terms of the history of a key. -/
namespace MvccLite
open Library

/-- A tombstone. -/
def VersionedValue.Dead (e : VersionedValue) : Prop := e.value = none

/-- The entries that a batch at `version` adds to the history of `key`. -/
def entriesFor (key : String) (version : Nat) (ops : List WriteOp) : List VersionedValue :=
  (ops.filter (fun op => op.key = key)).map (fun op => ⟨version, op.value⟩)

theorem mem_entriesFor {key : String} {version : Nat} {ops : List WriteOp} {e : VersionedValue} :
    e ∈ entriesFor key version ops ↔ e.version = version ∧ ⟨key, e.value⟩ ∈ ops := by
  obtain ⟨v, x⟩ := e
  simp only [entriesFor, List.mem_map, List.mem_filter, decide_eq_true_eq, VersionedValue.mk.injEq]
  constructor
  · rintro ⟨⟨k, y⟩, ⟨hop, rfl⟩, rfl, rfl⟩
    exact ⟨rfl, hop⟩
  · rintro ⟨rfl, hop⟩
    exact ⟨⟨key, x⟩, ⟨hop, rfl⟩, rfl, rfl⟩

theorem entriesFor_eq_nil {key : String} {version : Nat} {ops : List WriteOp} :
    entriesFor key version ops = [] ↔ ∀ op ∈ ops, op.key ≠ key := by
  simp [entriesFor, List.filter_eq_nil_iff]

/-- Appending a batch to a table, key by key. -/
private theorem lookup_pushAll (ops : List WriteOp) (version : Nat) (t : Table) (key : String) :
    (ops.foldl (fun t op => t.pushBack op.key ⟨version, op.value⟩) t).lookup key =
      if entriesFor key version ops = [] then t.lookup key
      else some ((t.lookup key).getD [] ++ entriesFor key version ops) := by
  induction ops generalizing t with
  | nil => simp [entriesFor]
  | cons op ops ih =>
    rw [List.foldl_cons, ih]
    by_cases hk : op.key = key
    · have hc : entriesFor key version (op :: ops) = ⟨version, op.value⟩ :: entriesFor key version ops := by
        simp [entriesFor, hk]
      rw [Table.pushBack, hk, AList.lookup_insert, hc]
      by_cases he : entriesFor key version ops = []
      · simp [he]
      · simp [he]
    · have hc : entriesFor key version (op :: ops) = entriesFor key version ops := by
        simp [entriesFor, hk]
      rw [Table.pushBack, AList.lookup_insert_ne (Ne.symm hk), hc]

namespace VersionStore

theorem lookup_append (s : VersionStore) (ops : List WriteOp) (key : String) :
    (s.append ops).table.lookup key =
      if entriesFor key s.nextVersion ops = [] then s.table.lookup key
      else some (s.history key ++ entriesFor key s.nextVersion ops) :=
  lookup_pushAll ops s.nextVersion s.table key

@[simp] theorem nextVersion_append (s : VersionStore) (ops : List WriteOp) :
    (s.append ops).nextVersion = s.nextVersion + 1 := rfl

@[simp] theorem history_append (s : VersionStore) (ops : List WriteOp) (key : String) :
    (s.append ops).history key = s.history key ++ entriesFor key s.nextVersion ops := by
  rw [history, lookup_append]
  split
  · rename_i he
    rw [he, List.append_nil, history]
  · rfl

/-- Versions along a history never decrease. -/
def Sorted (h : List VersionedValue) : Prop := h.Pairwise (fun a b => a.version ≤ b.version)

theorem Sorted.partitioned {h : List VersionedValue} (hs : Sorted h) (v : Nat) :
    Partitioned (fun e : VersionedValue => decide (e.version ≤ v)) h :=
  hs.imp (fun hab hb => by simpa using hab.trans (by simpa using hb))

theorem Sorted.split {h : List VersionedValue} (hs : Sorted h) (b : Nat) :
    h = (h.filter (fun e => decide (e.version ≤ b))).dropLast ++ retained VersionedValue.version b h :=
  retained_split hs

/-- The entry just before the partition point is the one a reader sees. -/
private theorem before_point {h : List VersionedValue} (hs : Sorted h) (v : Nat) :
    (if partitionPoint (fun e => decide (e.version ≤ v)) h = 0 then none
      else h[partitionPoint (fun e => decide (e.version ≤ v)) h - 1]?) = lastAt VersionedValue.version v h := by
  have hp := hs.partitioned v
  have ht := take_partitionPoint hp
  rw [lastAt, ← ht, List.getLast?_take]
  split
  · rfl
  · rename_i hz
    have hlt : partitionPoint (fun e => decide (e.version ≤ v)) h - 1 < h.length := by
      have := partitionPoint_le (fun e : VersionedValue => decide (e.version ≤ v)) h
      omega
    rw [List.getElem?_eq_getElem hlt]
    rfl

/-- The value a reader at `asOf` sees, `none` when there is none. -/
def visibleAsOf (s : VersionStore) (asOf : Nat) (key : String) : Option String :=
  (lastAt VersionedValue.version asOf (s.history key)).bind VersionedValue.value

/-- The value of the latest entry, `none` when absent or deleted. -/
def latestValue (s : VersionStore) (key : String) : Option String :=
  (s.history key).getLast?.bind VersionedValue.value

end VersionStore

/-- What a lookup reports for the value it found. -/
def Observed.ofValue : Option String → Observed
  | none => ⟨.notFound, none, none, none⟩
  | some v => ⟨.ok, some v, none, none⟩

/-- A lookup report determines the value found, and is otherwise `notFound`. -/
theorem Reply.of_ofValue {r : Reply} {found : Option String} (h : r.observed = .ofValue found) :
    (∀ v, r.status.code = .ok ∧ r.value = some v ↔ found = some v) ∧
      (found = none → r.status.code = .notFound) := by
  cases found with
  | none =>
    obtain ⟨hc, hv, _⟩ := Observed.mk.inj h
    simp [hc]
  | some x =>
    obtain ⟨hc, hv, _⟩ := Observed.mk.inj h
    simp [hc, hv]

/-- What the latest-version lookup reports for the newest entry. -/
def Observed.ofEntry : Option VersionedValue → Observed
  | some ⟨n, some v⟩ => ⟨.ok, some v, some n, none⟩
  | _ => ⟨.notFound, none, none, none⟩

theorem Reply.of_ofEntry {r : Reply} {newest : Option VersionedValue} (h : r.observed = .ofEntry newest) :
    (∀ v n, r.status.code = .ok ∧ r.value = some v ∧ r.version = some n ↔ newest = some ⟨n, some v⟩) ∧
      ((¬ ∃ e ∈ newest, e.value ≠ none) → r.status.code = .notFound) := by
  match newest with
  | none =>
    obtain ⟨hc, _⟩ := Observed.mk.inj h
    simp [hc]
  | some ⟨m, none⟩ =>
    obtain ⟨hc, _⟩ := Observed.mk.inj h
    simp [hc]
  | some ⟨m, some x⟩ =>
    obtain ⟨hc, hv, hn, _⟩ := Observed.mk.inj h
    simp [hc, hv, hn, and_comm]

/-- What a refused argument looks like to the caller. -/
def Observed.refused : Observed := ⟨.invalidArgument, none, none, none⟩

namespace VersionStore

theorem getAsOf_observed (s : VersionStore) (key : String) (asOf : Nat) (hs : Sorted (s.history key)) :
    (s.getAsOf key asOf).observed =
      if key = "" then .refused else .ofValue (s.visibleAsOf asOf key) := by
  unfold getAsOf visibleAsOf history at *
  by_cases hk : key = ""
  · simp [hk, Reply.observed, Observed.refused]
  · simp only [hk, if_false]
    cases hl : s.table.lookup key with
    | none => simp [Reply.observed, lastAt, Observed.ofValue]
    | some h =>
      simp only [hl, Option.getD_some] at hs ⊢
      rw [← before_point hs asOf]
      split
      · simp [Reply.observed, Observed.ofValue]
      · cases h[partitionPoint (fun e => decide (e.version ≤ asOf)) h - 1]? with
        | none => simp [Reply.observed, Observed.ofValue]
        | some e =>
          obtain ⟨v, x⟩ := e
          cases x <;> simp [Reply.observed, Observed.ofValue]

theorem get_observed (s : VersionStore) (key : String) :
    (s.get key).observed = if key = "" then .refused else .ofEntry (s.history key).getLast? := by
  unfold get history
  by_cases hk : key = ""
  · simp [hk, Reply.observed, Observed.refused]
  · simp only [hk, if_false]
    cases hl : s.table.lookup key with
    | none => simp [Reply.observed, Observed.ofEntry]
    | some h =>
      simp only [Option.getD_some]
      cases h.getLast? with
      | none => simp [Reply.observed, Observed.ofEntry]
      | some e =>
        obtain ⟨v, x⟩ := e
        cases x <;> simp [Reply.observed, Observed.ofEntry]

/-- Up to the version, a latest read depends on the latest value alone. -/
theorem get_answer (s : VersionStore) (key : String) :
    (s.get key).answer = if key = "" then Observed.refused.answer else (Observed.ofValue (s.latestValue key)).answer := by
  rw [← Reply.answer_observed, get_observed, latestValue]
  split
  · rfl
  · rcases (s.history key).getLast? with _ | ⟨_, _ | _⟩ <;> rfl

theorem currentlyVisible_eq (s : VersionStore) (key : String) :
    s.currentlyVisible key = (s.latestValue key).isSome := by
  unfold currentlyVisible latestValue history
  cases s.table.lookup key with
  | none => simp
  | some h => cases hl : h.getLast? <;> simp [hl]

theorem writtenSince_iff (s : VersionStore) (snapshot : Nat) (key : String) :
    s.writtenSince snapshot key = true ↔ ∃ e ∈ (s.history key).getLast?, snapshot < e.version := by
  unfold writtenSince history
  cases s.table.lookup key with
  | none => simp
  | some h => cases hl : h.getLast? <;> simp [hl]

/-- The sweep acts on each key's history alone. -/
private theorem lookup_collectLoop (b : Nat) (key : String)
    (entries : List (Sigma fun _ : String => List VersionedValue)) (stats : GCStats)
    (hn : entries.NodupKeys) :
    (collectLoop b stats entries).1.dlookup key =
      (entries.dlookup key).bind (fun h => (collectHistory b h).1) := by
  induction entries generalizing stats with
  | nil => rfl
  | cons e rest ih =>
    obtain ⟨k, h⟩ := e
    obtain ⟨hnot, hnr⟩ := List.nodupKeys_cons.mp hn
    by_cases hk : key = k
    · subst hk
      have hrest : (collectLoop b (stats.add (collectHistory b h).2) rest).1.dlookup key = none := by
        rw [ih _ hnr, List.dlookup_eq_none.mpr hnot]
        rfl
      cases hc : (collectHistory b h).1 with
      | none => simpa [collectLoop, hc] using hrest
      | some kept => simp [collectLoop, hc]
    · have hne (h' : List VersionedValue) (l : List (Sigma fun _ : String => List VersionedValue)) :
          List.dlookup key (⟨k, h'⟩ :: l) = l.dlookup key := List.dlookup_cons_ne l ⟨k, h'⟩ hk
      cases hc : (collectHistory b h).1 with
      | none => simpa only [collectLoop, hc, hne] using ih _ hnr
      | some kept => simpa only [collectLoop, hc, hne] using ih _ hnr

theorem lookup_collectGarbage (s : VersionStore) (b : Nat) (key : String) :
    (s.collectGarbage b).1.table.lookup key =
      (s.table.lookup key).bind (fun h => (collectHistory b h).1) :=
  lookup_collectLoop b key s.table.entries {} s.table.nodupKeys

@[simp] theorem nextVersion_collectGarbage (s : VersionStore) (b : Nat) :
    (s.collectGarbage b).1.nextVersion = s.nextVersion := rfl

/-- The retained part of a history with an entry at or below the boundary starts there. -/
private theorem retained_of_point {h : List VersionedValue} (hs : Sorted h) (b : Nat)
    (hn : partitionPoint (fun e => decide (e.version ≤ b)) h ≠ 0) :
    retained VersionedValue.version b h = h.drop (partitionPoint (fun e => decide (e.version ≤ b)) h - 1) ∧
      ∃ e ∈ (retained VersionedValue.version b h).head?, e.version ≤ b := by
  have hlen := partitionPoint_eq_length (hs.partitioned b)
  have hsplit := hs.split b
  constructor
  · have hd := congrArg (List.drop (partitionPoint (fun e => decide (e.version ≤ b)) h - 1)) hsplit
    rw [List.drop_left' (by rw [List.length_dropLast, hlen])] at hd
    exact hd.symm
  · have hne : h.filter (fun e => decide (e.version ≤ b)) ≠ [] := by
      intro he
      rw [he] at hlen
      exact hn hlen
    refine ⟨(h.filter (fun e => decide (e.version ≤ b))).getLast hne, ?_, ?_⟩
    · rw [retained, lastAt, List.getLast?_eq_some_getLast hne]
      rfl
    · simpa using (List.mem_filter.mp (List.getLast_mem hne)).2

/-- On a sorted history the loop body retains the last entry at or below the
boundary and everything after it, unless that is one tombstone. -/
theorem collectHistory_eq {h : List VersionedValue} (hs : Sorted h) (b : Nat) :
    (collectHistory b h).1 =
      if (retained VersionedValue.version b h).length = 1 ∧
          ∃ e ∈ (retained VersionedValue.version b h).head?, e.value = none ∧ e.version ≤ b then none
      else some (retained VersionedValue.version b h) := by
  have hlen := partitionPoint_eq_length (hs.partitioned b)
  by_cases hn : partitionPoint (fun e : VersionedValue => decide (e.version ≤ b)) h = 0
  · have hnil : h.filter (fun e => decide (e.version ≤ b)) = [] := List.length_eq_zero_iff.mp (hlen.symm.trans hn)
    have hret : retained VersionedValue.version b h = h := by
      have hsplit := hs.split b
      rw [hnil] at hsplit
      exact hsplit.symm
    have hnone : ¬ ∃ e ∈ h.head?, e.value = none ∧ e.version ≤ b := by
      rintro ⟨e, he, _, hle⟩
      exact List.filter_eq_nil_iff.mp hnil e (List.mem_of_head? he) (by simpa using hle)
    simp only [collectHistory, hn, if_true, hret, hnone, and_false, if_false]
  · obtain ⟨hret, e, he, hle⟩ := retained_of_point hs b hn
    have htrim : (if 0 < partitionPoint (fun e => decide (e.version ≤ b)) h - 1 then
        h.drop (partitionPoint (fun e => decide (e.version ≤ b)) h - 1) else h) =
        retained VersionedValue.version b h := by
      rw [hret]
      split
      · rfl
      · rename_i hz
        rw [Nat.eq_zero_of_not_pos hz, List.drop_zero]
    have hhead : (∃ e ∈ (retained VersionedValue.version b h).head?, e.value = none) ↔
        ∃ e ∈ (retained VersionedValue.version b h).head?, e.value = none ∧ e.version ≤ b := by
      simp only [Option.mem_def] at he
      simp [he, hle]
    simp only [collectHistory, hn, if_false, htrim, hhead]
    split <;> rfl

/-- A sweep empties a history only if its newest entry is a tombstone at or
below the boundary. -/
theorem history_collectGarbage_eq_nil {s : VersionStore} {b : Nat} {key : String} (hs : Sorted (s.history key))
    (he : (s.collectGarbage b).1.history key = []) :
    s.history key = [] ∨ ∃ e ∈ (s.history key).getLast?, e.Dead ∧ e.version ≤ b := by
  rw [history, lookup_collectGarbage] at he
  cases hl : s.table.lookup key with
  | none => exact .inl (by rw [history, hl]; rfl)
  | some hist =>
    have hh : s.history key = hist := by rw [history, hl]; rfl
    rw [hh] at hs ⊢
    rw [hl, Option.bind_some, collectHistory_eq hs] at he
    have hsplit := hs.split b
    split at he
    · rename_i hd
      obtain ⟨hone, e, hhead, hdead, hle⟩ := hd
      obtain ⟨x, hx⟩ := List.length_eq_one_iff.mp hone
      rw [hx] at hhead hsplit
      obtain rfl : x = e := by simpa using hhead
      exact .inr ⟨x, by rw [hsplit]; simp, hdead, hle⟩
    · rw [Option.getD_some] at he
      exact .inl (by_contra fun hne => retained_ne_nil hne he)

end VersionStore
end MvccLite
