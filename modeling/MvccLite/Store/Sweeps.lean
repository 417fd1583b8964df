import MvccLite.Store.Ledger
import MvccLite.Store.Writes

/-! What a sweep leaves of the table and what it counts. Sweeps compose: any
number of them act as one, at the largest of their boundaries. -/
namespace MvccLite
open Library

namespace VersionStore

/-- Nothing is left but one tombstone at or below the boundary. -/
def Expired (b : Nat) (kept : List VersionedValue) : Prop := ∃ e, kept = [e] ∧ e.Dead ∧ e.version ≤ b

/-- Everything the loop body can make of a sorted history. -/
theorem collectHistory_cases {h : List VersionedValue} (hs : Sorted h) (b : Nat) :
    (Expired b (retained VersionedValue.version b h) ∧ (collectHistory b h).1 = none) ∨
    (¬ Expired b (retained VersionedValue.version b h) ∧
      (collectHistory b h).1 = some (retained VersionedValue.version b h)) := by
  rw [collectHistory_eq hs]
  split
  · rename_i hd
    obtain ⟨hone, e, he, hdead, hle⟩ := hd
    obtain ⟨x, hx⟩ := List.length_eq_one_iff.mp hone
    rw [hx] at he
    obtain rfl : x = e := by simpa using he
    exact .inl ⟨⟨x, hx, hdead, hle⟩, rfl⟩
  · rename_i hd
    refine .inr ⟨?_, rfl⟩
    rintro ⟨e, he, hdead, hle⟩
    exact hd (by simpa [he] using ⟨hdead, hle⟩)

theorem Reachable.sorted {s : VersionStore} (h : s.Reachable) {key : String} {hist : List VersionedValue}
    (hl : s.table.lookup key = some hist) : Sorted hist := by
  obtain ⟨log, b, hr⟩ := h.represents
  have hs := hr.sorted key
  rwa [history, hl] at hs

/-- With nothing at or below the boundary, everything is retained. -/
theorem retained_above {b : Nat} {h : List VersionedValue} (hs : Sorted h) (hb : ∀ e ∈ h, b < e.version) :
    retained VersionedValue.version b h = h := by
  have hnone : h.filter (fun e => decide (e.version ≤ b)) = [] :=
    List.filter_eq_nil_iff.mpr (by simpa using hb)
  have hsplit := hs.split b
  rw [hnone] at hsplit
  exact hsplit.symm

theorem not_expired_above {b : Nat} {h : List VersionedValue} (hb : ∀ e ∈ h, b < e.version) : ¬ Expired b h := by
  rintro ⟨e, rfl, _, hle⟩
  exact absurd (hb e (by simp)) (by omega)

/-- A sweep leaves of each history the last entry at or below the boundary and
all entries above it, or nothing when that is one tombstone at or below the
boundary. It adds no key and draws no version. -/
theorem collectGarbage_retains_exactly {s : VersionStore} (h : s.Reachable) (b : Nat) :
    (∀ key hist, s.table.lookup key = some hist →
      (Expired b (retained VersionedValue.version b hist) → (s.collectGarbage b).1.table.lookup key = none) ∧
      (¬ Expired b (retained VersionedValue.version b hist) →
        (s.collectGarbage b).1.table.lookup key = some (retained VersionedValue.version b hist))) ∧
    (∀ key hist, s.table.lookup key = some hist → (∀ e ∈ hist, b < e.version) →
      (s.collectGarbage b).1.table.lookup key = some hist) ∧
    (∀ key, s.table.lookup key = none → (s.collectGarbage b).1.table.lookup key = none) ∧
    (s.collectGarbage b).1.nextVersion = s.nextVersion := by
  have hsome (key : String) (hist : List VersionedValue) (hl : s.table.lookup key = some hist) :
      (s.collectGarbage b).1.table.lookup key = (collectHistory b hist).1 := by
    rw [lookup_collectGarbage, hl, Option.bind_some]
  refine ⟨?_, ?_, ?_, rfl⟩
  · intro key hist hl
    rw [hsome key hist hl]
    rcases collectHistory_cases (h.sorted hl) b with ⟨he, hc⟩ | ⟨he, hc⟩
    · exact ⟨fun _ => hc, fun hn => absurd he hn⟩
    · exact ⟨fun hx => absurd hx he, fun _ => hc⟩
  · intro key hist hl hb
    rw [hsome key hist hl]
    rcases collectHistory_cases (h.sorted hl) b with ⟨he, _⟩ | ⟨_, hc⟩
    · rw [retained_above (h.sorted hl) hb] at he
      exact absurd he (not_expired_above hb)
    · rw [hc, retained_above (h.sorted hl) hb]
  · intro key hl
    rw [lookup_collectGarbage, hl]
    rfl

/-- A key deleted twice over inside one batch, one put and overwritten, one put last. -/
private def tombstones : VersionStore :=
  ((({} : VersionStore).write (.applyBatch [⟨"a", none⟩, ⟨"b", some "1"⟩, ⟨"a", none⟩])).1.write (.put "b" "2")).1.write
    (.put "c" "3") |>.1

private theorem reachable_tombstones : tombstones.Reachable :=
  ((Reachable.empty.write _).write _).write _

theorem collectGarbage_retains_exactly_tombstones :
    ∃ s : VersionStore, s.Reachable ∧ (s.collectGarbage 2).1.table.lookup "a" = none ∧
      (s.collectGarbage 2).1.table.lookup "b" = some [⟨2, some "2"⟩] ∧
      (s.collectGarbage 2).1.table.lookup "c" = some [⟨3, some "3"⟩] := by
  obtain ⟨hswept, hkept, _⟩ := collectGarbage_retains_exactly reachable_tombstones 2
  refine ⟨_, reachable_tombstones, ?_, ?_, ?_⟩
  · exact (hswept "a" [⟨1, none⟩, ⟨1, none⟩] (by decide)).1 ⟨⟨1, none⟩, by decide, rfl, by decide⟩
  · refine (hswept "b" [⟨1, some "1"⟩, ⟨2, some "2"⟩] (by decide)).2 ?_
    rintro ⟨e, he, hd, _⟩
    obtain rfl : ⟨2, some "2"⟩ = e := (List.cons.inj he).1
    cases hd
  · exact hkept "c" [⟨3, some "3"⟩] (by decide) (by decide)

end VersionStore

namespace VersionStore

theorem Sorted.retained {h : List VersionedValue} (hs : Sorted h) (b : Nat) :
    Sorted (retained VersionedValue.version b h) := by
  have hp := hs
  rw [hs.split b] at hp
  exact (List.pairwise_append.mp hp).2.1

/-- A history that has expired at one boundary has expired at every larger one. -/
private theorem expired_max {b c : Nat} {h : List VersionedValue} (hs : Sorted h)
    (he : Expired b (Library.retained VersionedValue.version b h)) :
    Expired (max b c) (Library.retained VersionedValue.version (max b c) h) := by
  obtain ⟨e, hr, hd, hle⟩ := he
  refine ⟨e, ?_, hd, hle.trans (le_max_left b c)⟩
  rw [← retained_retained hs, hr, Library.retained, lastAt]
  by_cases hc : e.version ≤ c
  · simp [hc]
  · simp [hc, Nat.lt_of_not_le hc]

/-- One that has not is judged by the second boundary as by the larger one. -/
private theorem expired_second {b c : Nat} {h : List VersionedValue}
    (hn : ¬ Expired b (Library.retained VersionedValue.version b h)) :
    Expired c (Library.retained VersionedValue.version (max b c) h) ↔
      Expired (max b c) (Library.retained VersionedValue.version (max b c) h) := by
  constructor
  · rintro ⟨e, hr, hd, hle⟩
    exact ⟨e, hr, hd, hle.trans (le_max_right b c)⟩
  · rintro ⟨e, hr, hd, hle⟩
    rcases le_total b c with hbc | hcb
    · exact ⟨e, hr, hd, hle.trans (max_eq_right hbc).le⟩
    · rw [max_eq_left hcb] at hr hle
      exact absurd ⟨e, hr, hd, hle⟩ hn

private theorem collectHistory_twice {h : List VersionedValue} (hs : Sorted h) (b c : Nat) :
    (collectHistory b h).1.bind (fun kept => (collectHistory c kept).1) = (collectHistory (max b c) h).1 := by
  rcases collectHistory_cases hs b with ⟨he, h₁⟩ | ⟨hn, h₁⟩
  · rcases collectHistory_cases hs (max b c) with ⟨_, h₂⟩ | ⟨hn, _⟩
    · rw [h₁, h₂]
      rfl
    · exact absurd (expired_max hs he) hn
  · have hiff := expired_second (c := c) hn
    rw [h₁, Option.bind_some]
    rcases collectHistory_cases (hs.retained b) c with ⟨he, h₂⟩ | ⟨hn', h₂⟩
    · rw [retained_retained hs] at he
      rcases collectHistory_cases hs (max b c) with ⟨_, h₃⟩ | ⟨hn', _⟩
      · rw [h₂, h₃]
      · exact absurd (hiff.mp he) hn'
    · rw [retained_retained hs] at hn' h₂
      rcases collectHistory_cases hs (max b c) with ⟨he, _⟩ | ⟨_, h₃⟩
      · exact absurd (hiff.mpr he) hn'
      · rw [h₂, h₃]

/-- The sweep keeps the order of the table. -/
private theorem collectLoop_entries (b : Nat) (stats : GCStats)
    (entries : List (Sigma fun _ : String => List VersionedValue)) :
    (collectLoop b stats entries).1 =
      entries.filterMap (fun e => (collectHistory b e.2).1.map (fun kept => ⟨e.1, kept⟩)) := by
  induction entries generalizing stats with
  | nil => rfl
  | cons e rest ih =>
    cases hc : (collectHistory b e.2).1 with
    | none => simp [collectLoop, hc, ih]
    | some kept => simp [collectLoop, hc, ih]

private theorem Reachable.sorted_entries {s : VersionStore} (h : s.Reachable)
    {e : Sigma fun _ : String => List VersionedValue} (he : e ∈ s.table.entries) : Sorted e.2 :=
  h.sorted (AList.mem_lookup_iff.mpr he)

private theorem store_twice {s : VersionStore} (h : s.Reachable) (b c : Nat) :
    ((s.collectGarbage b).1.collectGarbage c).1 = (s.collectGarbage (max b c)).1 := by
  have he : ((s.collectGarbage b).1.collectGarbage c).1.table.entries =
      (s.collectGarbage (max b c)).1.table.entries := by
    simp only [collectGarbage, collectLoop_entries, List.filterMap_filterMap]
    refine List.filterMap_congr (fun e hmem => ?_)
    rw [← collectHistory_twice (h.sorted_entries hmem) b c]
    cases (collectHistory b e.2).1 <;> rfl
  exact congrArg (VersionStore.mk · s.nextVersion) (AList.ext he)

/-- Two passes are one pass at the larger boundary. -/
private theorem collect_twice {s : VersionStore} (h : s.Reachable) (b c : Nat) :
    (((s.collectGarbage b).1.collectGarbage c).1,
      (s.collectGarbage b).2.add ((s.collectGarbage b).1.collectGarbage c).2) = s.collectGarbage (max b c) := by
  have hstore := store_twice h b c
  refine Prod.ext hstore (GCStats.eq_of_held (s := s) (t := (s.collectGarbage (max b c)).1) ?_ ?_)
  · intro m
    have h₁ := m.held_collectGarbage s b
    have h₂ := m.held_collectGarbage (s.collectGarbage b).1 c
    rw [hstore] at h₂
    rw [m.add]
    omega
  · exact fun m => m.held_collectGarbage s (max b c)

/-- A pass at zero finds nothing, since versions start at one. -/
private theorem collect_zero {s : VersionStore} (h : s.Reachable) : s.collectGarbage 0 = (s, {}) := by
  obtain ⟨log, b, hr⟩ := h.represents
  have hpos : ∀ e ∈ s.table.entries, ∀ v ∈ e.2, 0 < v.version := by
    rintro ⟨key, hist⟩ he v hv
    have hh : s.history key = hist := by rw [history, AList.mem_lookup_iff.mpr he]; rfl
    obtain ⟨w, hw, hver, _⟩ := WriteLog.mem_history.mp ((hr.suffix key).subset (hh ▸ hv))
    rw [hver]
    exact (hr.numbered.bounds hw).1
  have hkeep : ∀ e ∈ s.table.entries, (collectHistory 0 e.2).1 = some e.2 := by
    intro e he
    have hret := retained_above (h.sorted_entries he) (hpos e he)
    rcases collectHistory_cases (h.sorted_entries he) 0 with ⟨hx, _⟩ | ⟨_, hc⟩
    · rw [hret] at hx
      exact absurd hx (not_expired_above (hpos e he))
    · rw [hc, hret]
  have hstore : (s.collectGarbage 0).1 = s := by
    have he : (s.collectGarbage 0).1.table.entries = s.table.entries := by
      simp only [collectGarbage, collectLoop_entries]
      rw [List.filterMap_congr (g := some) (fun e hmem => by rw [hkeep e hmem]; rfl), List.filterMap_some]
    exact congrArg (VersionStore.mk · s.nextVersion) (AList.ext he)
  refine Prod.ext hstore (GCStats.eq_of_held (s := s) (t := s) ?_ ?_)
  · intro m
    have hm := m.held_collectGarbage s 0
    rwa [hstore] at hm
  · intro m
    rw [m.zero, Nat.zero_add]

/-- Passes one after the other, their counts added up. -/
def collectAll (s : VersionStore) : List Nat → VersionStore × GCStats
  | [] => (s, {})
  | b :: bs =>
    let rest := collectAll (s.collectGarbage b).1 bs
    (rest.1, (s.collectGarbage b).2.add rest.2)

private theorem collectAll_eq {s : VersionStore} (h : s.Reachable) (bs : List Nat) :
    s.collectAll bs = s.collectGarbage (highest bs) := by
  induction bs generalizing s with
  | nil => exact (collect_zero h).symm
  | cons b bs ih =>
    rw [collectAll, ih (h.collect b), highest_cons]
    exact collect_twice h b (highest bs)

private theorem highest_perm {bs bs' : List Nat} (h : bs.Perm bs') : highest bs = highest bs' := by
  induction h with
  | nil => rfl
  | cons b _ ih => rw [highest_cons, highest_cons, ih]
  | swap b c bs => simp only [highest_cons, max_left_comm]
  | trans _ _ ih₁ ih₂ => exact ih₁.trans ih₂

/-- Any sequence of passes is the single pass at the largest boundary, counts
included, whatever the order; a pass at zero does nothing. -/
theorem collectAll_eq_highest {s : VersionStore} (h : s.Reachable) (bs : List Nat) :
    s.collectAll bs = s.collectGarbage (highest bs) ∧
    (∀ bs', bs.Perm bs' → s.collectAll bs' = s.collectAll bs) ∧
    s.collectGarbage 0 = (s, {}) := by
  refine ⟨collectAll_eq h bs, ?_, collect_zero h⟩
  intro bs' hp
  rw [collectAll_eq h, collectAll_eq h, highest_perm hp]

theorem collectAll_eq_highest_tombstones :
    ∃ s : VersionStore, s.Reachable ∧ s.collectAll [2, 1, 2] = s.collectGarbage 2 ∧
      (s.collectGarbage 2).2 = ⟨3, 1⟩ :=
  ⟨_, reachable_tombstones, (collectAll_eq_highest reachable_tombstones [2, 1, 2]).1, by decide⟩

end VersionStore
end MvccLite
