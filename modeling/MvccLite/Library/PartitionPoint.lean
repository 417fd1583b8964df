import Mathlib.Data.List.Basic
import Mathlib.Tactic.Common

/-! Binary search for the end of the leading segment on which a test holds,
as the C++ algorithm `partition_point` performs it, and its value on a
partitioned list. -/
namespace MvccLite.Library
variable {α : Type*}

/-- The search loop: `len` candidates remain, starting at position `first`.
Every round at least halves `len`, so `len` rounds of fuel are enough. -/
def partitionLoop (p : α → Bool) (xs : List α) : Nat → Nat → Nat → Nat
  | 0, first, _ => first
  | fuel + 1, first, len =>
    if len = 0 then first
    else
      match xs[first + len / 2]? with
      | none => first
      | some x =>
        if p x then partitionLoop p xs fuel (first + len / 2 + 1) (len - len / 2 - 1)
        else partitionLoop p xs fuel first (len / 2)

/-- Position just past the last element of the leading segment satisfying `p`. -/
def partitionPoint (p : α → Bool) (xs : List α) : Nat :=
  partitionLoop p xs xs.length 0 xs.length

/-- No element passing the test stands after one failing it. -/
def Partitioned (p : α → Bool) (xs : List α) : Prop :=
  xs.Pairwise (fun a b => p b = true → p a = true)

/-- With no candidate left, the search stands at the partition point. -/
private theorem loop_done (p : α → Bool) (xs : List α) {first : Nat}
    (lo : ∀ i x, i < first → xs[i]? = some x → p x = true)
    (hi : ∀ i x, first + 0 ≤ i → xs[i]? = some x → p x = false) {i : Nat} {x : α} (hx : xs[i]? = some x) :
    p x = true ↔ i < first := by
  by_cases h : i < first
  · simpa [h] using lo i x h hx
  · simpa [h] using hi i x (by omega) hx

private theorem loop_splits (p : α → Bool) (xs : List α) (hp : Partitioned p xs)
    (fuel first len : Nat) (hf : len ≤ fuel) (hl : first + len ≤ xs.length)
    (lo : ∀ i x, i < first → xs[i]? = some x → p x = true)
    (hi : ∀ i x, first + len ≤ i → xs[i]? = some x → p x = false) :
    ∀ i x, xs[i]? = some x → (p x = true ↔ i < partitionLoop p xs fuel first len) := by
  induction fuel generalizing first len with
  | zero =>
    obtain rfl : len = 0 := by omega
    exact fun i x hx => loop_done p xs lo hi hx
  | succ fuel ih =>
    by_cases hz : len = 0
    · subst hz
      intro i x hx
      simpa only [partitionLoop, if_true] using loop_done p xs lo hi hx
    · have hm : first + len / 2 < xs.length := by omega
      have hget : xs[first + len / 2]? = some xs[first + len / 2] := List.getElem?_eq_getElem hm
      have ordered : ∀ (i j : Nat) (x y : α), i < j → xs[i]? = some x → xs[j]? = some y →
          p y = true → p x = true := by
        intro i j x y hij hx hy
        obtain ⟨hi', rfl⟩ := List.getElem?_eq_some_iff.mp hx
        obtain ⟨hj', rfl⟩ := List.getElem?_eq_some_iff.mp hy
        exact List.pairwise_iff_getElem.mp hp i j hi' hj' hij
      simp only [partitionLoop, hz, if_false, hget]
      by_cases ht : p xs[first + len / 2] = true
      · rw [if_pos ht]
        apply ih
        · omega
        · omega
        · intro i x hlt hx
          rcases Nat.lt_or_ge i (first + len / 2) with h | h
          · exact ordered i _ x _ h hx hget ht
          · obtain rfl : i = first + len / 2 := by omega
            rw [hget] at hx
            obtain rfl := Option.some.inj hx
            exact ht
        · intro i x hge hx
          exact hi i x (by omega) hx
      · rw [if_neg ht]
        apply ih
        · omega
        · omega
        · exact lo
        · intro i x hge hx
          by_contra hc
          rcases Nat.lt_or_ge (first + len / 2) i with h | h
          · exact ht (ordered _ i _ x h hget hx (by simpa using hc))
          · obtain rfl : i = first + len / 2 := by omega
            rw [hget] at hx
            obtain rfl := Option.some.inj hx
            exact hc (by simpa using ht)

private theorem filter_eq_take (p : α → Bool) (xs : List α) (n : Nat)
    (h : ∀ i x, xs[i]? = some x → (p x = true ↔ i < n)) : xs.filter p = xs.take n := by
  induction xs generalizing n with
  | nil => simp
  | cons a xs ih =>
    have ha := h 0 a rfl
    cases n with
    | zero =>
      refine List.filter_eq_nil_iff.mpr ?_
      intro x hx hpx
      obtain ⟨i, hi, rfl⟩ := List.mem_iff_getElem.mp hx
      exact absurd ((h i _ (List.getElem?_eq_getElem hi)).mp hpx) (by omega)
    | succ n =>
      rw [List.filter_cons_of_pos (ha.mpr (by omega)), List.take_succ_cons, ih n]
      intro i x hx
      exact (h (i + 1) x (by simpa using hx)).trans Nat.add_lt_add_iff_right

private theorem point_splits (p : α → Bool) (xs : List α) (hp : Partitioned p xs) :
    ∀ i x, xs[i]? = some x → (p x = true ↔ i < partitionPoint p xs) := by
  apply loop_splits p xs hp xs.length 0 xs.length (Nat.le_refl _) (by omega)
  · intro i x h
    omega
  · intro i x h hx
    obtain ⟨hlt, _⟩ := List.getElem?_eq_some_iff.mp hx
    omega

/-- What precedes the partition point is exactly what passes the test. -/
theorem take_partitionPoint {p : α → Bool} {xs : List α} (hp : Partitioned p xs) :
    xs.take (partitionPoint p xs) = xs.filter p :=
  (filter_eq_take p xs _ (point_splits p xs hp)).symm

private theorem loop_le (p : α → Bool) (xs : List α) (fuel first len : Nat) :
    partitionLoop p xs fuel first len ≤ first + len := by
  induction fuel generalizing first len with
  | zero => simp [partitionLoop]
  | succ fuel ih =>
    unfold partitionLoop
    split
    · omega
    · split
      · omega
      · split
        · exact Nat.le_trans (ih _ _) (by omega)
        · exact Nat.le_trans (ih _ _) (by omega)

theorem partitionPoint_le (p : α → Bool) (xs : List α) : partitionPoint p xs ≤ xs.length := by
  simpa [partitionPoint] using loop_le p xs xs.length 0 xs.length

/-- The partition point of a partitioned list counts the passing elements. -/
theorem partitionPoint_eq_length {p : α → Bool} {xs : List α} (hp : Partitioned p xs) :
    partitionPoint p xs = (xs.filter p).length := by
  rw [← take_partitionPoint hp, List.length_take, Nat.min_eq_left (partitionPoint_le p xs)]

end MvccLite.Library
