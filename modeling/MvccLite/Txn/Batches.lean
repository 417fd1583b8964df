import MvccLite.Txn.Outcomes

/-! Batches as commits submit them. The order in which a write set is walked
makes no difference; asking for the conflicting keys makes one. -/
namespace MvccLite
open VersionStore

/-- The same reply and the same map from keys to histories, with the conflicts in any order. -/
structure SameOutcome (out out' : VersionStore × Reply) : Prop where
  status : out.2.status = out'.2.status
  version : out.2.version = out'.2.version
  conflictingKeys : Option.Rel List.Perm out.2.conflictingKeys out'.2.conflictingKeys
  table : ∀ key, out.1.table.lookup key = out'.1.table.lookup key
  nextVersion : out.1.nextVersion = out'.1.nextVersion

section order
variable {ops ops' : List WriteOp}

/-- A batch without repetition has at most one operation on each key. -/
private theorem filter_key_perm (hp : ops.Perm ops') (hn : (ops.map WriteOp.key).Nodup) (key : String) :
    ops.filter (fun op => op.key = key) = ops'.filter (fun op => op.key = key) := by
  have hperm := hp.filter (fun op : WriteOp => decide (op.key = key))
  have hne : (ops.filter (fun op => op.key = key)).Pairwise (fun a b => a.key ≠ b.key) :=
    (List.pairwise_map.mp hn).sublist List.filter_sublist
  have hkey : ∀ op ∈ ops.filter (fun op => op.key = key), op.key = key :=
    fun op hop => by simpa using (List.mem_filter.mp hop).2
  generalize ops.filter (fun op => op.key = key) = found at *
  cases found with
  | nil => exact hperm.nil_eq
  | cons op rest =>
    cases rest with
    | nil => exact List.singleton_perm.mp hperm
    | cons op' rest =>
      have hdiff := (List.pairwise_cons.mp hne).1 op' (by simp)
      exact absurd ((hkey op (by simp)).trans (hkey op' (by simp)).symm) hdiff

theorem entriesFor_perm (hp : ops.Perm ops') (hn : (ops.map WriteOp.key).Nodup) (key : String) (version : Nat) :
    entriesFor key version ops = entriesFor key version ops' := by
  rw [entriesFor, entriesFor, filter_key_perm hp hn]

theorem batchRefusal_perm (hp : ops.Perm ops') : batchRefusal ops = batchRefusal ops' := by
  have hnil : ops = [] ↔ ops' = [] := by
    rw [← List.length_eq_zero_iff, ← List.length_eq_zero_iff, hp.length_eq]
  have hempty : (∃ op ∈ ops, op.key = "") ↔ ∃ op ∈ ops', op.key = "" := by
    simp only [hp.mem_iff]
  simp only [batchRefusal, hnil, hempty]

private theorem refused_same (s : VersionStore) (r : Reply) (hk : r.conflictingKeys = none) :
    SameOutcome (s, r) (s, r) where
  status := rfl
  version := rfl
  conflictingKeys := by
    rw [hk]
    exact .none
  table _ := rfl
  nextVersion := rfl

private theorem append_same (s : VersionStore) (hp : ops.Perm ops') (hn : (ops.map WriteOp.key).Nodup) :
    SameOutcome (s.append ops, s.written) (s.append ops', s.written) where
  status := rfl
  version := rfl
  conflictingKeys := .none
  table key := by rw [lookup_append, lookup_append, entriesFor_perm hp hn]
  nextVersion := rfl

private theorem applyBatch_perm (s : VersionStore) (hp : ops.Perm ops') (hn : (ops.map WriteOp.key).Nodup) :
    SameOutcome (s.applyBatch ops) (s.applyBatch ops') := by
  unfold applyBatch
  rw [← batchRefusal_perm hp]
  cases batchRefusal ops with
  | some refusal => exact refused_same s _ rfl
  | none => exact append_same s hp hn

private theorem applyBatchIfNoConflict_perm (s : VersionStore) (hp : ops.Perm ops')
    (hn : (ops.map WriteOp.key).Nodup) (snapshot : Nat) (want : Bool) :
    SameOutcome (s.applyBatchIfNoConflict ops snapshot want) (s.applyBatchIfNoConflict ops' snapshot want) := by
  have hconf := (hp.filter (fun op => s.writtenSince snapshot op.key)).map WriteOp.key
  unfold applyBatchIfNoConflict
  rw [← batchRefusal_perm hp]
  cases batchRefusal ops with
  | some refusal => exact refused_same s _ rfl
  | none =>
    dsimp only
    generalize (ops.filter (fun op => s.writtenSince snapshot op.key)).map WriteOp.key = found at *
    generalize (ops'.filter (fun op => s.writtenSince snapshot op.key)).map WriteOp.key = found' at *
    have hnil : found = [] ↔ found' = [] := by
      rw [← List.length_eq_zero_iff, ← List.length_eq_zero_iff, hconf.length_eq]
    by_cases hc : found = []
    · rw [if_pos hc, if_pos (hnil.mp hc)]
      exact append_same s hp hn
    · rw [if_neg hc, if_neg (fun h => hc (hnil.mpr h))]
      have hleft : (if want then [] else found).length = (if want then [] else found').length := by
        cases want with
        | false => exact hconf.length_eq
        | true => rfl
      refine ⟨by rw [hleft], rfl, ?_, fun _ => rfl, rfl⟩
      cases want with
      | false => exact .none
      | true => exact .some hconf

private theorem commit_perm (s : VersionStore) {txn txn' : Transaction} (hstate : txn.state = txn'.state)
    (hsnap : txn.snapshotVersion = txn'.snapshotVersion) (hp : txn.ops.Perm txn'.ops) (want : Bool) :
    SameOutcome ((txn.commit s want).1, (txn.commit s want).2.2) ((txn'.commit s want).1, (txn'.commit s want).2.2) := by
  by_cases ha : txn.state = .active
  · have ha' : txn'.state = .active := hstate ▸ ha
    have hnil : txn.writeSet.entries = [] ↔ txn'.writeSet.entries = [] := by
      rw [← txn.ops_eq_nil, ← txn'.ops_eq_nil, ← List.length_eq_zero_iff, ← List.length_eq_zero_iff, hp.length_eq]
    have hbatch := applyBatchIfNoConflict_perm s hp txn.ops_keys_nodup txn.snapshotVersion want
    simp only [Transaction.commit, ha, ha', ne_eq, not_true_eq_false, if_false, hnil, ← hsnap]
    by_cases he : txn'.writeSet.entries = []
    · simp only [he, if_true]
      exact refused_same s _ rfl
    · generalize s.applyBatchIfNoConflict txn.ops txn.snapshotVersion want = out at *
      generalize s.applyBatchIfNoConflict txn'.ops txn.snapshotVersion want = out' at *
      have hboth : out'.2.status.isOk = out.2.status.isOk := by rw [hbatch.status]
      cases hok : out.2.status.isOk with
      | true =>
        simp only [he, if_false, hboth, hok, if_true]
        exact ⟨rfl, hbatch.version, .none, hbatch.table, hbatch.nextVersion⟩
      | false =>
        simp only [he, if_false, hboth, hok, Bool.false_eq_true]
        exact ⟨hbatch.status, rfl, hbatch.conflictingKeys, hbatch.table, hbatch.nextVersion⟩
  · rw [Transaction.commit_inactive ha, Transaction.commit_inactive (hstate ▸ ha)]
    exact refused_same s _ rfl

/-- Two orders of the same operations on distinct keys have the same outcome, in
both batch calls and in the commits that walk their write sets in these orders. -/
theorem batch_order_irrelevant (s : VersionStore) (hp : ops.Perm ops') (hn : (ops.map WriteOp.key).Nodup) :
    (∀ snapshot want, SameOutcome (s.applyBatchIfNoConflict ops snapshot want)
      (s.applyBatchIfNoConflict ops' snapshot want)) ∧
    SameOutcome (s.applyBatch ops) (s.applyBatch ops') ∧
    ∀ txn txn' : Transaction, txn.ops = ops → txn'.ops = ops' → txn.state = txn'.state →
      txn.snapshotVersion = txn'.snapshotVersion → ∀ want,
        SameOutcome ((txn.commit s want).1, (txn.commit s want).2.2)
          ((txn'.commit s want).1, (txn'.commit s want).2.2) := by
  refine ⟨applyBatchIfNoConflict_perm s hp hn, applyBatch_perm s hp hn, ?_⟩
  rintro txn txn' rfl rfl hstate hsnap want
  exact commit_perm s hstate hsnap hp want

theorem batch_order_irrelevant_swap :
    let s := (({} : VersionStore).write (.put "a" "1")).1
    let ops : List WriteOp := [⟨"a", none⟩, ⟨"b", some "2"⟩]
    ops.Perm ops.reverse ∧ (ops.map WriteOp.key).Nodup ∧
      SameOutcome (s.applyBatchIfNoConflict ops 1 true) (s.applyBatchIfNoConflict ops.reverse 1 true) :=
  ⟨by decide, by decide, (batch_order_irrelevant _ (by decide) (by decide)).1 1 true⟩

end order

section details

/-- The conflict text that names this many keys. -/
def conflictMessage (n : Nat) : String := "write-write conflict on " ++ toString n ++ " key(s)"

private theorem numbered_inj (pre post : String) {m n : Nat}
    (h : pre ++ toString m ++ post = pre ++ toString n ++ post) : m = n := by
  have htext := congrArg String.toList h
  simp only [String.toList_append, Nat.toString_eq_ofList_toDigits, String.toList_ofList] at htext
  have hdigits : Nat.toDigits 10 m = Nat.toDigits 10 n :=
    List.append_cancel_left (List.append_cancel_right htext)
  calc
    m = Nat.ofDigitChars 10 (Nat.toDigits 10 m) 0 := Nat.ofDigitChars_ten_toDigits.symm
    _ = Nat.ofDigitChars 10 (Nat.toDigits 10 n) 0 := by rw [hdigits]
    _ = n := Nat.ofDigitChars_ten_toDigits

theorem conflictMessage_inj {m n : Nat} (h : conflictMessage m = conflictMessage n) : m = n := by
  unfold conflictMessage at h
  exact numbered_inj _ _ h

/-- The operations whose key was written after the snapshot. -/
def VersionStore.conflicts (s : VersionStore) (ops : List WriteOp) (snapshot : Nat) : List WriteOp :=
  ops.filter (fun op => s.writtenSince snapshot op.key)

/-- Asking for the conflicting keys changes neither the store nor the code, and
both conflict reports give the number of keys on the list that is handed out. -/
structure DetailsAside (n : Nat) (asked unasked : VersionStore × Reply) : Prop where
  store : asked.1 = unasked.1
  code : asked.2.status.code = unasked.2.status.code
  reported : asked.2.status.code = .conflict → asked.2.status.message = conflictMessage n
  reportedUnasked : unasked.2.status.code = .conflict → unasked.2.status.message = conflictMessage n
  listed : asked.2.status.code = .conflict → asked.2.conflictingKeys.map List.length = some n

/-- Without a conflict there is nothing to report. -/
private theorem details_of_no_conflict {n : Nat} {asked unasked : VersionStore × Reply} (h : asked = unasked)
    (hc : asked.2.status.code ≠ .conflict) : DetailsAside n asked unasked := by
  subst h
  exact ⟨rfl, rfl, fun h => absurd h hc, fun h => absurd h hc, fun h => absurd h hc⟩

variable (s : VersionStore)

/-- The size that goes into the message is taken after the list has been moved out. -/
private theorem conflict_message {ops : List WriteOp} {snapshot : Nat} (hr : batchRefusal ops = none)
    (hc : s.conflicts ops snapshot ≠ []) (want : Bool) :
    s.applyBatchIfNoConflict ops snapshot want = (s,
      { status := .conflict (conflictMessage (if want then 0 else (s.conflicts ops snapshot).length)),
        conflictingKeys := if want then some ((s.conflicts ops snapshot).map WriteOp.key) else none }) := by
  have hne : (ops.filter (fun op => s.writtenSince snapshot op.key)).map WriteOp.key ≠ [] :=
    fun h => hc (List.map_eq_nil_iff.mp h)
  unfold applyBatchIfNoConflict
  rw [hr]
  dsimp only
  rw [if_neg hne]
  cases want with
  | true => rfl
  | false =>
    have hlen : ((s.conflicts ops snapshot).map WriteOp.key).length = (s.conflicts ops snapshot).length :=
      List.length_map _
    change (s, ({ status := .conflict (conflictMessage ((s.conflicts ops snapshot).map WriteOp.key).length) } : Reply)) = _
    rw [hlen]
    rfl

private theorem details_batch (ops : List WriteOp) (snapshot : Nat) :
    DetailsAside (s.conflicts ops snapshot).length (s.applyBatchIfNoConflict ops snapshot true)
        (s.applyBatchIfNoConflict ops snapshot false) ↔
      batchRefusal ops ≠ none ∨ ∀ op ∈ ops, s.writtenSince snapshot op.key = false := by
  cases hr : batchRefusal ops with
  | some refusal =>
    simp only [ne_eq, reduceCtorEq, not_false_eq_true, true_or, iff_true]
    apply details_of_no_conflict
    · simp [applyBatchIfNoConflict, hr]
    · simp [applyBatchIfNoConflict, hr, batchRefusal_code hr]
  | none =>
    simp only [ne_eq, not_true_eq_false, false_or]
    by_cases hc : s.conflicts ops snapshot = []
    · have hnone : ∀ op ∈ ops, s.writtenSince snapshot op.key = false := by
        simpa [conflicts, List.filter_eq_nil_iff] using hc
      have hempty : (ops.filter (fun op => s.writtenSince snapshot op.key)).map WriteOp.key = [] := by
        rw [show ops.filter (fun op => s.writtenSince snapshot op.key) = [] from hc, List.map_nil]
      refine iff_of_true (details_of_no_conflict ?_ ?_) hnone
      · simp [applyBatchIfNoConflict, hr, hempty]
      · simp [applyBatchIfNoConflict, hr, hempty]
    · refine iff_of_false ?_ ?_
      · intro hd
        have hmsg := hd.reported
        rw [conflict_message s hr hc] at hmsg
        have hzero := conflictMessage_inj (hmsg rfl)
        exact hc (List.length_eq_zero_iff.mp hzero.symm)
      · intro hnone
        exact hc (by simpa [conflicts, List.filter_eq_nil_iff] using hnone)

/-- `Commit` passes a conflict report on as it gets it. -/
private theorem commit_forwards {txn : Transaction} (ha : txn.state = .active) (hne : txn.writeSet.entries ≠ [])
    (want : Bool) :
    (txn.commit s want).1 = (s.applyBatchIfNoConflict txn.ops txn.snapshotVersion want).1 ∧
    (txn.commit s want).2.2.status.code =
      (s.applyBatchIfNoConflict txn.ops txn.snapshotVersion want).2.status.code ∧
    ((s.applyBatchIfNoConflict txn.ops txn.snapshotVersion want).2.status.code = .conflict →
      (txn.commit s want).2.2.status = (s.applyBatchIfNoConflict txn.ops txn.snapshotVersion want).2.status ∧
      (txn.commit s want).2.2.conflictingKeys =
        (s.applyBatchIfNoConflict txn.ops txn.snapshotVersion want).2.conflictingKeys) := by
  generalize ho : s.applyBatchIfNoConflict txn.ops txn.snapshotVersion want = out
  by_cases hok : out.2.status.code = .ok
  · simp [Transaction.commit, ha, hne, ho, Status.isOk, hok]
  · simp [Transaction.commit, ha, hne, ho, Status.isOk, hok]

private theorem details_commit (txn : Transaction) :
    DetailsAside (s.conflicts txn.ops txn.snapshotVersion).length
        ((txn.commit s true).1, (txn.commit s true).2.2) ((txn.commit s false).1, (txn.commit s false).2.2) ↔
      txn.state ≠ .active ∨ batchRefusal txn.ops ≠ none ∨
        ∀ op ∈ txn.ops, s.writtenSince txn.snapshotVersion op.key = false := by
  by_cases ha : txn.state = .active
  · by_cases he : txn.writeSet.entries = []
    · have hnil := txn.ops_eq_nil.mpr he
      refine iff_of_true (details_of_no_conflict ?_ ?_) (.inr (.inl (by simp [hnil, batchRefusal])))
      · simp [Transaction.commit, ha, he]
      · simp [Transaction.commit, ha, he]
    · obtain ⟨h₁, h₂, h₃⟩ := commit_forwards s ha he true
      obtain ⟨g₁, g₂, g₃⟩ := commit_forwards s ha he false
      simp only [ha, ne_eq, not_true_eq_false, false_or]
      rw [← ne_eq, ← details_batch]
      constructor
      · intro hd
        refine ⟨h₁ ▸ g₁ ▸ hd.store, h₂ ▸ g₂ ▸ hd.code, fun hc => ?_, fun hc => ?_, fun hc => ?_⟩
        · exact (h₃ hc).1 ▸ hd.reported (h₂.trans hc)
        · exact (g₃ hc).1 ▸ hd.reportedUnasked (g₂.trans hc)
        · exact (h₃ hc).2 ▸ hd.listed (h₂.trans hc)
      · intro hd
        refine ⟨h₁.trans (hd.store.trans g₁.symm), h₂.trans (hd.code.trans g₂.symm), fun hc => ?_, fun hc => ?_,
          fun hc => ?_⟩
        · have hc' := h₂.symm.trans hc
          exact (congrArg Status.message (h₃ hc').1).trans (hd.reported hc')
        · have hc' := g₂.symm.trans hc
          exact (congrArg Status.message (g₃ hc').1).trans (hd.reportedUnasked hc')
        · have hc' := h₂.symm.trans hc
          exact (congrArg (Option.map List.length) (h₃ hc').2).trans (hd.listed hc')
  · refine iff_of_true (details_of_no_conflict ?_ ?_) (.inl ha)
    · rw [Transaction.commit_inactive ha, Transaction.commit_inactive ha]
    · simp [Transaction.commit_inactive ha, Transaction.notActive]

/-- Asking for the keys is without consequence exactly when no conflict is to be
reported: the batch is refused, or none of its keys was written since the snapshot. -/
theorem details_aside_iff (s : VersionStore) :
    (∀ ops snapshot,
      DetailsAside (s.conflicts ops snapshot).length (s.applyBatchIfNoConflict ops snapshot true)
          (s.applyBatchIfNoConflict ops snapshot false) ↔
        batchRefusal ops ≠ none ∨ ∀ op ∈ ops, s.writtenSince snapshot op.key = false) ∧
    ∀ txn : Transaction,
      DetailsAside (s.conflicts txn.ops txn.snapshotVersion).length
          ((txn.commit s true).1, (txn.commit s true).2.2) ((txn.commit s false).1, (txn.commit s false).2.2) ↔
        txn.state ≠ .active ∨ batchRefusal txn.ops ≠ none ∨
          ∀ op ∈ txn.ops, s.writtenSince txn.snapshotVersion op.key = false :=
  ⟨details_batch s, details_commit s⟩

/-- One overwritten key: the list names it, and the message says that there is none. -/
theorem details_aside_overwritten_key :
    let s := (({} : VersionStore).write (.put "k" "1")).1
    let asked := s.applyBatchIfNoConflict [⟨"k", some "2"⟩] 0 true
    let unasked := s.applyBatchIfNoConflict [⟨"k", some "2"⟩] 0 false
    s.Reachable ∧ asked.2.conflictingKeys = some ["k"] ∧
      asked.2.status.message = "write-write conflict on 0 key(s)" ∧
      unasked.2.status.message = "write-write conflict on 1 key(s)" ∧
      ¬ DetailsAside (s.conflicts [⟨"k", some "2"⟩] 0).length asked unasked := by
  refine ⟨Reachable.empty.write _, by decide, by decide, by decide, ?_⟩
  intro hd
  exact absurd (hd.reported (by decide)) (by decide)

end details

end MvccLite
