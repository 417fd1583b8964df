import Mathlib.Data.List.Basic
import Mathlib.Order.Lattice
import Mathlib.Tactic.Common

/-! Append-only histories of stamped entries, some of which are dead markers.
A reader at a stamp sees the last entry at or below it. A history may lose
entries below a bound as long as no reader at or above the bound can tell. -/
namespace MvccLite.Library
variable {α V : Type*} [LinearOrder V] (stamp : α → V) (dead : α → Prop)

/-- The entry a reader at `v` sees. -/
def lastAt (v : V) (xs : List α) : Option α := (xs.filter (fun x => stamp x ≤ v)).getLast?

/-- The last entry at or below the bound, followed by everything above it. -/
def retained (b : V) (xs : List α) : List α :=
  (lastAt stamp b xs).toList ++ xs.filter (fun x => ¬ stamp x ≤ b)

/-- `kept` is `full` without a prefix that readers at or above `b` cannot miss:
the prefix lies below the bound, and either its successor does too or it ends
in a dead marker. -/
def Trimmed (b : V) (full kept : List α) : Prop :=
  ∃ gone, full = gone ++ kept ∧ (∀ x ∈ gone, stamp x ≤ b) ∧
    (gone = [] ∨ (∃ x ∈ kept.head?, stamp x ≤ b) ∨ ∃ x ∈ gone.getLast?, dead x)

variable {stamp dead}

theorem Trimmed.refl (b : V) (xs : List α) : Trimmed stamp dead b xs xs :=
  ⟨[], rfl, by simp, .inl rfl⟩

theorem Trimmed.mono {b c : V} {full kept : List α} (hbc : b ≤ c)
    (h : Trimmed stamp dead b full kept) : Trimmed stamp dead c full kept := by
  obtain ⟨gone, hf, hb, hc⟩ := h
  refine ⟨gone, hf, fun x hx => (hb x hx).trans hbc, ?_⟩
  rcases hc with hc | ⟨x, hx, hle⟩ | hc
  · exact .inl hc
  · exact .inr (.inl ⟨x, hx, hle.trans hbc⟩)
  · exact .inr (.inr hc)

/-- Where nothing is stamped above `c`, trimming at any bound is trimming at `c`. -/
theorem Trimmed.clamp {b c : V} {full kept : List α} (h : Trimmed stamp dead b full kept)
    (hc : ∀ x ∈ full, stamp x ≤ c) : Trimmed stamp dead c full kept := by
  obtain ⟨gone, rfl, _, hcut⟩ := h
  refine ⟨gone, rfl, fun x hx => hc x (List.mem_append_left _ hx), ?_⟩
  rcases hcut with hcut | ⟨x, hx, _⟩ | hcut
  · exact .inl hcut
  · exact .inr (.inl ⟨x, hx, hc x (List.mem_append_right _ (List.mem_of_head? hx))⟩)
  · exact .inr (.inr hcut)

theorem Trimmed.append {b : V} {full kept : List α} (h : Trimmed stamp dead b full kept)
    (ys : List α) : Trimmed stamp dead b (full ++ ys) (kept ++ ys) := by
  obtain ⟨gone, hf, hb, hc⟩ := h
  refine ⟨gone, by rw [hf, List.append_assoc], hb, ?_⟩
  rcases hc with hc | ⟨x, hx, hle⟩ | hc
  · exact .inl hc
  · refine .inr (.inl ⟨x, ?_, hle⟩)
    cases kept with
    | nil => simp at hx
    | cons a kept => simpa using hx
  · exact .inr (.inr hc)

/-- Reading at or above the bound: same entry, or a dead one that is gone. -/
theorem Trimmed.lastAt_eq {b v : V} {full kept : List α} (h : Trimmed stamp dead b full kept)
    (hv : b ≤ v) : lastAt stamp v kept = lastAt stamp v full ∨
      lastAt stamp v kept = none ∧ ∃ x ∈ lastAt stamp v full, dead x := by
  obtain ⟨gone, rfl, hb, hc⟩ := h
  have hg : gone.filter (fun x => stamp x ≤ v) = gone :=
    List.filter_eq_self.mpr (fun x hx => by simpa using (hb x hx).trans hv)
  simp only [lastAt, List.filter_append, hg]
  cases hk : kept.filter (fun x => stamp x ≤ v) with
  | cons a rest => exact .inl (by simp [List.getLast?_append, List.getLast?_cons])
  | nil =>
    rcases hc with rfl | ⟨x, hx, hle⟩ | ⟨x, hx, hd⟩
    · exact .inl (by simp)
    · have hm : x ∈ kept := List.mem_of_head? hx
      have hx' := List.filter_eq_nil_iff.mp hk x hm
      exact absurd (by simpa using hle.trans hv) hx'
    · exact .inr ⟨rfl, x, by simpa using hx, hd⟩

theorem stamp_le_of_lastAt {v : V} {xs : List α} {x : α} (h : lastAt stamp v xs = some x) : stamp x ≤ v := by
  simpa using (List.mem_filter.mp (List.mem_of_getLast? h)).2

/-- Whatever has been dropped from the front, a reader sees the right entry or none. -/
theorem lastAt_suffix {v : V} {full kept : List α} (h : kept <:+ full) :
    lastAt stamp v kept = lastAt stamp v full ∨ lastAt stamp v kept = none := by
  obtain ⟨gone, rfl⟩ := h
  simp only [lastAt, List.filter_append]
  cases hk : kept.filter (fun x => stamp x ≤ v) with
  | nil => exact .inr rfl
  | cons a rest => exact .inl (by simp [List.getLast?_append, List.getLast?_cons])

/-- The newest entry: the same, or a dead one that is gone with the history. -/
theorem Trimmed.getLast_eq {b : V} {full kept : List α} (h : Trimmed stamp dead b full kept) :
    kept.getLast? = full.getLast? ∨ kept = [] ∧ ∃ x ∈ full.getLast?, dead x ∧ stamp x ≤ b := by
  obtain ⟨gone, rfl, hb, hc⟩ := h
  cases kept with
  | cons a kept => exact .inl (by simp [List.getLast?_append, List.getLast?_cons])
  | nil =>
    rcases hc with rfl | ⟨x, hx, _⟩ | ⟨x, hx, hd⟩
    · exact .inl rfl
    · simp at hx
    · exact .inr ⟨rfl, x, by simpa using hx, hd, hb x (List.mem_of_getLast? hx)⟩

/-- Whether something was stamped above `v` is still visible on the newest entry. -/
theorem Trimmed.newer_iff {b v : V} {full kept : List α} (h : Trimmed stamp dead b full kept)
    (hv : b ≤ v) : (∃ x ∈ kept.getLast?, v < stamp x) ↔ ∃ x ∈ full.getLast?, v < stamp x := by
  rcases h.getLast_eq with he | ⟨rfl, x, hx, _, hle⟩
  · rw [he]
  · constructor
    · rintro ⟨y, hy, _⟩
      simp at hy
    · rintro ⟨y, hy, hlt⟩
      obtain rfl : x = y := Option.some.inj (hx.symm.trans hy)
      exact absurd (hle.trans hv) hlt.not_ge

private theorem split_at_bound {b : V} {xs : List α} (hs : xs.Pairwise (fun x y => stamp x ≤ stamp y)) :
    xs = xs.filter (fun x => stamp x ≤ b) ++ xs.filter (fun x => ¬ stamp x ≤ b) := by
  induction xs with
  | nil => rfl
  | cons a xs ih =>
    rw [List.pairwise_cons] at hs
    by_cases ha : stamp a ≤ b
    · simpa [List.filter_cons, ha] using ih hs.2
    · have hn : ∀ x ∈ a :: xs, ¬ stamp x ≤ b := by
        intro x hx hle
        rcases List.mem_cons.mp hx with rfl | hx
        · exact ha hle
        · exact ha ((hs.1 x hx).trans hle)
      rw [List.filter_eq_nil_iff.mpr (by simpa using hn), List.filter_eq_self.mpr (by simpa using hn)]
      rfl

/-- In a sorted history, retention drops a prefix lying below the bound. -/
theorem retained_split {b : V} {xs : List α} (hs : xs.Pairwise (fun x y => stamp x ≤ stamp y)) :
    xs = (xs.filter (fun x => stamp x ≤ b)).dropLast ++ retained stamp b xs := by
  rw [retained, lastAt, ← List.append_assoc]
  have hd : (xs.filter (fun x => stamp x ≤ b)).dropLast ++
      (xs.filter (fun x => stamp x ≤ b)).getLast?.toList = xs.filter (fun x => stamp x ≤ b) := by
    rcases List.eq_nil_or_concat (xs.filter (fun x => stamp x ≤ b)) with h | ⟨ys, y, h⟩
    · simp [h]
    · simp [h]
  rw [hd]
  exact split_at_bound hs

theorem retained_ne_nil {b : V} {xs : List α} (h : xs ≠ []) : retained stamp b xs ≠ [] := by
  intro hr
  obtain ⟨hlast, habove⟩ := List.append_eq_nil_iff.mp hr
  have hbelow : xs.filter (fun x => stamp x ≤ b) = [] := by
    rwa [Option.toList_eq_nil_iff, lastAt, List.getLast?_eq_none_iff] at hlast
  refine h (List.eq_nil_iff_forall_not_mem.mpr (fun x hx => ?_))
  by_cases hle : stamp x ≤ b
  · exact List.filter_eq_nil_iff.mp hbelow x hx (by simpa using hle)
  · exact List.filter_eq_nil_iff.mp habove x hx (by simpa using hle)

theorem retained_append {b : V} {low high : List α} (hlow : ∀ x ∈ low, stamp x ≤ b)
    (hhigh : ∀ x ∈ high, ¬ stamp x ≤ b) : retained stamp b (low ++ high) = low.getLast?.toList ++ high := by
  have h₁ : low.filter (fun x => stamp x ≤ b) = low := List.filter_eq_self.mpr (by simpa using hlow)
  have h₂ : high.filter (fun x => stamp x ≤ b) = [] := List.filter_eq_nil_iff.mpr (by simpa using hhigh)
  have h₃ : low.filter (fun x => ¬ stamp x ≤ b) = [] := List.filter_eq_nil_iff.mpr (by simpa using hlow)
  have h₄ : high.filter (fun x => ¬ stamp x ≤ b) = high := List.filter_eq_self.mpr (by simpa using hhigh)
  rw [retained, lastAt, List.filter_append, List.filter_append, h₁, h₂, h₃, h₄, List.append_nil, List.nil_append]

private theorem exists_split {b : V} {xs : List α} (hs : xs.Pairwise (fun x y => stamp x ≤ stamp y)) :
    ∃ low high, xs = low ++ high ∧ (∀ x ∈ low, stamp x ≤ b) ∧ ∀ x ∈ high, ¬ stamp x ≤ b :=
  ⟨_, _, split_at_bound hs, fun _ hx => by simpa using (List.mem_filter.mp hx).2,
    fun _ hx => by simpa using (List.mem_filter.mp hx).2⟩

private theorem getLast?_toList_append (low mid : List α) :
    (low.getLast?.toList ++ mid).getLast? = (low ++ mid).getLast? := by
  cases h : low.getLast? with
  | none => simp [List.getLast?_eq_none_iff.mp h]
  | some x => simp [List.getLast?_append, List.getLast?_cons, h]

/-- Retaining twice is retaining once, at the larger bound. -/
theorem retained_retained {b c : V} {xs : List α} (hs : xs.Pairwise (fun x y => stamp x ≤ stamp y)) :
    retained stamp c (retained stamp b xs) = retained stamp (max b c) xs := by
  obtain ⟨low, high, rfl, hlow, hhigh⟩ := exists_split (b := b) hs
  have hlast : ∀ x ∈ low.getLast?.toList, x ∈ low := fun x hx => List.mem_of_getLast? (by simpa using hx)
  rw [retained_append hlow hhigh]
  rcases le_total b c with hbc | hcb
  · obtain ⟨mid, top, rfl, hmid, htop⟩ := exists_split (b := c) (List.pairwise_append.mp hs).2.1
    have hbelow (zs : List α) (hz : ∀ x ∈ zs, x ∈ low) : ∀ x ∈ zs ++ mid, stamp x ≤ c := by
      intro x hx
      rcases List.mem_append.mp hx with hx | hx
      · exact (hlow x (hz x hx)).trans hbc
      · exact hmid x hx
    rw [max_eq_right hbc, ← List.append_assoc, ← List.append_assoc, retained_append (hbelow _ hlast) htop,
      retained_append (hbelow low fun _ hx => hx) htop, getLast?_toList_append]
  · have habove : ∀ x ∈ high, ¬ stamp x ≤ c := fun x hx hle => hhigh x hx (hle.trans hcb)
    rw [max_eq_left hcb, retained_append hlow hhigh]
    cases hl : low.getLast? with
    | none =>
      have he : retained stamp c ([] ++ high) = _ := retained_append (by simp) habove
      exact he
    | some x =>
      by_cases hx : stamp x ≤ c
      · have he : retained stamp c ([x] ++ high) = _ := retained_append (by simpa using hx) habove
        exact he
      · have habove' : ∀ y ∈ x :: high, ¬ stamp y ≤ c := by
          intro y hy
          rcases List.mem_cons.mp hy with rfl | hy
          · exact hx
          · exact habove y hy
        have he : retained stamp c ([] ++ x :: high) = _ := retained_append (by simp) habove'
        exact he

private theorem mem_dropLast_le {b : V} {xs : List α} {x : α}
    (hx : x ∈ (xs.filter (fun x => stamp x ≤ b)).dropLast) : stamp x ≤ b := by
  have := List.dropLast_subset _ hx
  simpa using (List.mem_filter.mp this).2

/-- Retaining at any bound keeps the history a trimmed one, at the larger bound. -/
theorem Trimmed.retained {b c d : V} {full kept : List α} (h : Trimmed stamp dead b full kept)
    (hbd : b ≤ d) (hcd : c ≤ d) (hs : kept.Pairwise (fun x y => stamp x ≤ stamp y)) :
    Trimmed stamp dead d full (retained stamp c kept) := by
  cases hl : kept.filter (fun x => stamp x ≤ c) with
  | nil =>
    have he : MvccLite.Library.retained stamp c kept = kept := by
      conv_rhs => rw [retained_split (b := c) hs, hl]
      rfl
    rw [he]
    exact h.mono hbd
  | cons a rest =>
    obtain ⟨gone, rfl, hb, _⟩ := h
    refine ⟨gone ++ (kept.filter (fun x => stamp x ≤ c)).dropLast, ?_, ?_, ?_⟩
    · rw [List.append_assoc, ← retained_split hs]
    · intro x hx
      rcases List.mem_append.mp hx with hx | hx
      · exact (hb x hx).trans hbd
      · exact (mem_dropLast_le hx).trans hcd
    · refine .inr (.inl ?_)
      have hne : a :: rest ≠ [] := by simp
      refine ⟨(a :: rest).getLast hne, ?_, ?_⟩
      · simp [MvccLite.Library.retained, lastAt, hl, List.getLast?_eq_some_getLast hne]
      · have hm : (a :: rest).getLast hne ∈ kept.filter (fun x => stamp x ≤ c) := by
          rw [hl]
          exact List.getLast_mem hne
        exact le_trans (by simpa using (List.mem_filter.mp hm).2) hcd

/-- Retaining at the bound gives what it gives on the full history, up to a dead marker that is gone. -/
theorem Trimmed.retained_eq {b : V} {full kept : List α} (h : Trimmed stamp dead b full kept) :
    MvccLite.Library.retained stamp b kept = MvccLite.Library.retained stamp b full ∨
      (∃ x ∈ lastAt stamp b full, dead x) ∧
        MvccLite.Library.retained stamp b kept = full.filter (fun x => ¬ stamp x ≤ b) := by
  have habove : kept.filter (fun x => ¬ stamp x ≤ b) = full.filter (fun x => ¬ stamp x ≤ b) := by
    obtain ⟨gone, rfl, hb, _⟩ := h
    have hgone : gone.filter (fun x => ¬ stamp x ≤ b) = [] := List.filter_eq_nil_iff.mpr (by simpa using hb)
    rw [List.filter_append, hgone, List.nil_append]
  simp only [MvccLite.Library.retained, habove]
  rcases h.lastAt_eq le_rfl with he | ⟨hn, hd⟩
  · exact .inl (by rw [he])
  · exact .inr ⟨hd, by rw [hn]; rfl⟩

/-- A history retained as one dead marker at or below the bound may go altogether. -/
theorem Trimmed.drop_dead {c : V} {full : List α} {x : α} (h : Trimmed stamp dead c full [x])
    (hle : stamp x ≤ c) (hd : dead x) : Trimmed stamp dead c full [] := by
  obtain ⟨gone, rfl, hb, _⟩ := h
  refine ⟨gone ++ [x], by simp, ?_, .inr (.inr ⟨x, by simp, hd⟩)⟩
  intro y hy
  rcases List.mem_append.mp hy with hy | hy
  · exact hb y hy
  · rwa [List.mem_singleton.mp hy]

end MvccLite.Library
