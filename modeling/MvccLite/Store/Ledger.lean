import Mathlib.Algebra.Ring.Nat
import MvccLite.Store.Histories

/-! Quantities of the table that are never lost: what a sweep takes out of the
table it adds to its counts, and what a write puts in can be told from its
operations. -/
namespace MvccLite
open Library

/-- The loop body drops a prefix and counts it, or drops the whole history. -/
private theorem collectHistory_shape (b : Nat) (h : List VersionedValue) :
    (∃ n ≤ h.length, VersionStore.collectHistory b h = (some (h.drop n), ⟨n, 0⟩)) ∨
    VersionStore.collectHistory b h = (none, ⟨h.length, 1⟩) := by
  have hle := partitionPoint_le (fun v : VersionedValue => decide (v.version ≤ b)) h
  simp only [VersionStore.collectHistory]
  generalize partitionPoint (fun v : VersionedValue => decide (v.version ≤ b)) h = point at *
  by_cases hz : point = 0
  · rw [if_pos hz]
    exact .inl ⟨0, Nat.zero_le _, by rw [List.drop_zero]⟩
  · have htrim : (if 0 < point - 1 then h.drop (point - 1) else h) = h.drop (point - 1) := by
      split
      · rfl
      · rename_i hp
        rw [Nat.eq_zero_of_not_pos hp, List.drop_zero]
    rw [if_neg hz, htrim]
    split
    · rename_i hd
      have hone := hd.1
      rw [List.length_drop] at hone
      exact .inr (by rw [show point - 1 + 1 = h.length by omega])
    · exact .inl ⟨point - 1, by omega, rfl⟩

/-- How many of the operations meet a key that is absent from the table. -/
def Table.insertions (t : Table) (version : Nat) : List WriteOp → Nat
  | [] => 0
  | op :: ops => (if op.key ∈ t then 0 else 1) + insertions (t.pushBack op.key ⟨version, op.value⟩) version ops

/-- A quantity of the table that every sweep moves into its counts. A new key
brings one, an entry after others brings `extend`. -/
structure Ledger where
  ofHistory : List VersionedValue → Nat
  ofStats : GCStats → Nat
  extend : Nat
  created : ∀ e, ofHistory [e] = 1
  appended : ∀ h e, ofHistory (h ++ [e]) = ofHistory h + extend
  zero : ofStats {} = 0
  add : ∀ a b, ofStats (a.add b) = ofStats a + ofStats b
  swept : ∀ b h, ofStats (VersionStore.collectHistory b h).2 +
    (VersionStore.collectHistory b h).1.elim 0 ofHistory = ofHistory h

namespace Ledger
open VersionStore

/-- Stored entries, against `versions_reclaimed`. -/
def versions : Ledger where
  ofHistory := List.length
  ofStats := GCStats.versionsReclaimed
  extend := 1
  created _ := rfl
  appended h e := by rw [List.length_append, List.length_singleton]
  zero := rfl
  add _ _ := rfl
  swept b h := by
    rcases collectHistory_shape b h with ⟨n, hn, hc⟩ | hc
    · rw [hc]
      simp only [Option.elim_some, List.length_drop]
      omega
    · rw [hc]
      rfl

/-- Keys of the table, against `keys_removed`. -/
def keys : Ledger where
  ofHistory _ := 1
  ofStats := GCStats.keysRemoved
  extend := 0
  created _ := rfl
  appended _ _ := rfl
  zero := rfl
  add _ _ := rfl
  swept b h := by
    rcases collectHistory_shape b h with ⟨n, _, hc⟩ | hc
    · rw [hc]
      rfl
    · rw [hc]
      rfl

variable (m : Ledger)

/-- How much of it the table holds. -/
def held (t : Table) : Nat := (t.entries.map (fun e => m.ofHistory e.2)).sum

private theorem swept_loop (b : Nat) (entries : List (Sigma fun _ : String => List VersionedValue))
    (stats : GCStats) :
    m.ofStats (collectLoop b stats entries).2 +
      ((collectLoop b stats entries).1.map (fun e => m.ofHistory e.2)).sum =
    m.ofStats stats + (entries.map (fun e => m.ofHistory e.2)).sum := by
  induction entries generalizing stats with
  | nil => rfl
  | cons e rest ih =>
    obtain ⟨key, h⟩ := e
    have hrest := ih (stats.add (collectHistory b h).2)
    have hone := m.swept b h
    rw [m.add] at hrest
    cases hc : (collectHistory b h).1 with
    | none =>
      rw [hc, Option.elim_none] at hone
      simp only [collectLoop, hc, List.map_cons, List.sum_cons]
      omega
    | some kept =>
      rw [hc, Option.elim_some] at hone
      simp only [collectLoop, hc, List.map_cons, List.sum_cons]
      omega

/-- What a sweep reports is what the table no longer holds. -/
theorem held_collectGarbage (s : VersionStore) (b : Nat) :
    m.ofStats (s.collectGarbage b).2 + m.held (s.collectGarbage b).1.table = m.held s.table := by
  have h := m.swept_loop b s.table.entries {}
  rwa [m.zero, Nat.zero_add] at h

/-- What the operations add, one after the other. -/
def gained (t : Table) (version : Nat) : List WriteOp → Nat
  | [] => 0
  | op :: ops =>
    (if op.key ∈ t then m.extend else 1) + gained (t.pushBack op.key ⟨version, op.value⟩) version ops

theorem gained_versions (t : Table) (version : Nat) (ops : List WriteOp) :
    versions.gained t version ops = ops.length := by
  induction ops generalizing t with
  | nil => rfl
  | cons op ops ih =>
    rw [gained, ih, List.length_cons, Nat.add_comm]
    simp [versions]

theorem gained_keys (t : Table) (version : Nat) (ops : List WriteOp) :
    keys.gained t version ops = t.insertions version ops := by
  induction ops generalizing t with
  | nil => rfl
  | cons op ops ih =>
    rw [gained, ih, Table.insertions]
    rfl

private theorem held_pushBack (t : Table) (key : String) (e : VersionedValue) :
    m.held (t.pushBack key e) = m.held t + if key ∈ t then m.extend else 1 := by
  have hins (h : List VersionedValue) :
      m.held (t.insert key h) = m.ofHistory h + ((List.kerase key t.entries).map (fun e => m.ofHistory e.2)).sum := by
    rw [held, AList.entries_insert, List.map_cons, List.sum_cons]
  rw [Table.pushBack, hins]
  by_cases hk : key ∈ t
  · obtain ⟨h, pre, post, _, hent, herase⟩ := List.exists_of_kerase (AList.mem_keys.mp hk)
    have hl : t.lookup key = some h := AList.mem_lookup_iff.mpr (by simp [hent])
    rw [herase, held, hent, hl, Option.getD_some, m.appended, if_pos hk]
    simp only [List.map_append, List.map_cons, List.sum_append, List.sum_cons]
    omega
  · have hl : t.lookup key = none := AList.lookup_eq_none.mpr hk
    rw [hl, Option.getD_none, List.nil_append, m.created, if_neg hk,
      List.kerase_of_notMem_keys (fun h => hk (AList.mem_keys.mpr h)), held, Nat.add_comm]

/-- What a write adds to the table. -/
theorem held_append (s : VersionStore) (ops : List WriteOp) :
    m.held (s.append ops).table = m.held s.table + m.gained s.table s.nextVersion ops := by
  have hfold (t : Table) : m.held (ops.foldl (fun t op => t.pushBack op.key ⟨s.nextVersion, op.value⟩) t) =
      m.held t + m.gained t s.nextVersion ops := by
    induction ops generalizing t with
    | nil => rfl
    | cons op ops ih => rw [List.foldl_cons, ih, m.held_pushBack, gained, Nat.add_assoc]
  exact hfold s.table

theorem held_versions (s : VersionStore) : versions.held s.table = (s.table.keys.map s.versionCount).sum := by
  rw [held, AList.keys, List.keys, List.map_map]
  refine congrArg List.sum (List.map_congr_left (fun e he => ?_))
  have hl : s.table.lookup e.1 = some e.2 := AList.mem_lookup_iff.mpr he
  simp [versions, versionCount, hl]

theorem held_keys (s : VersionStore) : keys.held s.table = s.keyCount := by
  simp [held, keys, keyCount]

end Ledger

/-- The counts of a pass follow from what the table held before and after it. -/
theorem GCStats.eq_of_held {s : VersionStore} {a b : GCStats} {t : VersionStore}
    (ha : ∀ m : Ledger, m.ofStats a + m.held t.table = m.held s.table)
    (hb : ∀ m : Ledger, m.ofStats b + m.held t.table = m.held s.table) : a = b := by
  have hv : a.versionsReclaimed = b.versionsReclaimed :=
    Nat.add_right_cancel ((ha .versions).trans (hb .versions).symm)
  have hk : a.keysRemoved = b.keysRemoved := Nat.add_right_cancel ((ha .keys).trans (hb .keys).symm)
  cases a
  cases b
  simp_all

end MvccLite
