import Mathlib.Data.List.Nodup
import Mathlib.Order.Lattice
import MvccLite.Txn.Manager

/-! The sharded registry read as one map, and the scan read as a minimum. -/
namespace MvccLite

namespace TransactionManager
variable (m : TransactionManager)

theorem lookup_register (id snapshot : Nat) (sh : Fin kNumShards) (id' : Nat) :
    ((m.register id snapshot).shards sh).lookup id' =
      if sh = shardFor id ∧ id' = id then some snapshot else (m.shards sh).lookup id' := by
  by_cases hs : sh = shardFor id
  · subst hs
    by_cases hi : id' = id
    · subst hi
      simp [register]
    · simp [register, hi, AList.lookup_insert_ne hi]
  · simp [register, hs]

theorem lookup_unregister (id : Nat) (sh : Fin kNumShards) (id' : Nat) :
    ((m.unregister id).shards sh).lookup id' =
      if sh = shardFor id ∧ id' = id then none else (m.shards sh).lookup id' := by
  by_cases hs : sh = shardFor id
  · subst hs
    by_cases hi : id' = id
    · subst hi
      simp [unregister]
    · simp [unregister, hi, AList.lookup_erase_ne hi]
  · simp [unregister, hs]

theorem lookup_fetchTxnId (sh : Fin kNumShards) (id : Nat) :
    (m.fetchTxnId.shards sh).lookup id = (m.shards sh).lookup id := rfl

@[simp] theorem nextTxnId_register (id snapshot : Nat) : (m.register id snapshot).nextTxnId = m.nextTxnId := rfl
@[simp] theorem nextTxnId_unregister (id : Nat) : (m.unregister id).nextTxnId = m.nextTxnId := rfl
@[simp] theorem nextTxnId_fetchTxnId : m.fetchTxnId.nextTxnId = m.nextTxnId + 1 := rfl

/-- The snapshots registered in a shard. -/
def snapshots (shard : Shard) : List Nat := shard.entries.map Sigma.snd

theorem mem_snapshots {shard : Shard} {v : Nat} : v ∈ snapshots shard ↔ ∃ id, shard.lookup id = some v := by
  constructor
  · intro h
    obtain ⟨⟨id, _⟩, he, rfl⟩ := List.mem_map.mp h
    exact ⟨id, AList.mem_lookup_iff.mpr he⟩
  · rintro ⟨id, h⟩
    exact List.mem_map.mpr ⟨⟨id, v⟩, AList.mem_lookup_iff.mp h, rfl⟩

private theorem foldl_least (seen : Option Nat) (xs : List Nat) :
    xs.foldl (fun seen x => some (match seen with | none => x | some oldest => min oldest x)) seen =
      (seen.toList ++ xs).min? := by
  induction xs generalizing seen with
  | nil => cases seen <;> rfl
  | cons x xs ih =>
    rw [List.foldl_cons, ih]
    cases seen with
    | none => rfl
    | some m => rfl

/-- Scanning a shard takes the minimum of what was seen before and what it holds. -/
theorem scanShard_eq (seen : Option Nat) (shard : Shard) :
    scanShard seen shard = (seen.toList ++ snapshots shard).min? := by
  rw [← foldl_least, snapshots, List.foldl_map]
  rfl

private theorem toList_min? (xs ys : List Nat) : (xs.min?.toList ++ ys).min? = (xs ++ ys).min? := by
  rw [← foldl_least, ← List.nil_append xs, ← Option.toList_none, List.append_assoc, ← foldl_least,
    ← foldl_least, List.foldl_append]

/-- The whole scan is one minimum over all shards. -/
theorem scan_eq : (List.finRange kNumShards).foldl (fun seen i => scanShard seen (m.shards i)) none =
    ((List.finRange kNumShards).flatMap (fun i => snapshots (m.shards i))).min? := by
  have h (is : List (Fin kNumShards)) (xs : List Nat) :
      is.foldl (fun seen i => scanShard seen (m.shards i)) xs.min? =
        (xs ++ is.flatMap (fun i => snapshots (m.shards i))).min? := by
    induction is generalizing xs with
    | nil => simp
    | cons i is ih => rw [List.foldl_cons, scanShard_eq, toList_min?, ih, List.flatMap_cons, List.append_assoc]
  exact h _ []

/-- Every identifier held anywhere in the registry. -/
def registeredIds : List Nat := (List.finRange kNumShards).flatMap (fun i => (m.shards i).keys)

theorem activeTransactionCount_eq : m.activeTransactionCount = m.registeredIds.length := by
  have h (is : List (Fin kNumShards)) (n : Nat) :
      is.foldl (fun total i => total + (m.shards i).entries.length) n =
        n + (is.flatMap (fun i => (m.shards i).keys)).length := by
    induction is generalizing n with
    | nil => simp
    | cons i is ih =>
      rw [List.foldl_cons, ih, List.flatMap_cons, List.length_append, Nat.add_assoc]
      simp [AList.keys, List.keys]
  simpa [activeTransactionCount, registeredIds] using h (List.finRange kNumShards) 0

theorem mem_registeredIds {id : Nat} : id ∈ m.registeredIds ↔ ∃ sh, id ∈ m.shards sh := by
  simp [registeredIds, AList.mem_keys]

theorem registeredIds_nodup (h : ∀ id sh, id ∈ m.shards sh → sh = shardFor id) : m.registeredIds.Nodup := by
  refine List.nodup_flatMap.mpr ⟨fun i _ => (m.shards i).keys_nodup, ?_⟩
  refine (List.nodup_finRange kNumShards).imp (fun {i j} hij => ?_)
  intro id hi hj
  exact hij ((h id i hi).trans (h id j hj).symm)

theorem min?_congr {xs ys : List Nat} (h : ∀ x, x ∈ xs ↔ x ∈ ys) : xs.min? = ys.min? := by
  cases hx : xs.min? with
  | none =>
    rw [List.min?_eq_none_iff] at hx
    subst hx
    symm
    rw [List.min?_eq_none_iff, List.eq_nil_iff_forall_not_mem]
    exact fun x hxy => List.not_mem_nil ((h x).mpr hxy)
  | some a =>
    obtain ⟨hm, hle⟩ := List.min?_eq_some_iff.mp hx
    exact (List.min?_eq_some_iff.mpr ⟨(h a).mp hm, fun b hb => hle b ((h b).mpr hb)⟩).symm

/-- The scan answers as one unsharded list of the registered snapshots would. -/
theorem oldestActiveSnapshot_eq (store : VersionStore) {xs : List Nat}
    (h : ∀ v, v ∈ xs ↔ ∃ sh id, (m.shards sh).lookup id = some v) :
    m.oldestActiveSnapshot store = xs.min?.getD store.currentVersion := by
  have hc : ((List.finRange kNumShards).flatMap (fun i => snapshots (m.shards i))).min? = xs.min? :=
    min?_congr (fun v => by simp [h, mem_snapshots])
  rw [oldestActiveSnapshot, scan_eq, hc]
  cases xs.min? <;> rfl

end TransactionManager
end MvccLite
