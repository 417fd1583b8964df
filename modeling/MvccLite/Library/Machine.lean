import Mathlib.Data.List.Induction
import Mathlib.Tactic.Common

/-! Labelled machines with outputs, the paths they take, and induction along
those paths. A label that is not enabled in a state has no step there. -/
namespace MvccLite.Library
universe u v w

structure Machine (σ : Type u) (α : Type v) (ρ : Type w) where
  init : σ
  step : σ → α → Option (σ × ρ)

/-- One step with everything it read and produced. -/
structure Transition (σ : Type u) (α : Type v) (ρ : Type w) where
  source : σ
  label : α
  output : ρ
  target : σ

/-- Some transition of the trace carries the label. -/
def Occurs {σ : Type u} {α : Type v} {ρ : Type w} (tr : List (Transition σ α ρ)) (a : α) : Prop :=
  ∃ t ∈ tr, t.label = a

theorem not_occurs_nil {σ : Type u} {α : Type v} {ρ : Type w} (a : α) :
    ¬ Occurs ([] : List (Transition σ α ρ)) a := by
  rintro ⟨t, ht, _⟩
  simp at ht

theorem occurs_concat {σ : Type u} {α : Type v} {ρ : Type w} {tr : List (Transition σ α ρ)}
    {t : Transition σ α ρ} {a : α} : Occurs (tr ++ [t]) a ↔ Occurs tr a ∨ t.label = a := by
  simp [Occurs, or_and_right, exists_or]

/-- What a trace records of its transitions grows with each of them. -/
theorem filterMap_concat {β : Type*} {γ : Type*} (f : β → Option γ) (tr : List β) (t : β) :
    (tr ++ [t]).filterMap f = tr.filterMap f ++ (f t).toList := by
  rw [List.filterMap_append]
  cases h : f t <;> simp [h]

namespace Machine
variable {σ : Type u} {α : Type v} {ρ : Type w} (M : Machine σ α ρ)

/-- The machine takes this very transition. -/
def Taken (t : Transition σ α ρ) : Prop := M.step t.source t.label = some (t.target, t.output)

/-- Consecutive transitions from a first to a last state. -/
inductive Path (s : σ) : List (Transition σ α ρ) → σ → Prop
  | nil : Path s [] s
  | snoc {tr : List (Transition σ α ρ)} {t : Transition σ α ρ} :
      Path s tr t.source → M.Taken t → Path s (tr ++ [t]) t.target

/-- A path from the initial state. -/
abbrev Execution (tr : List (Transition σ α ρ)) (s : σ) : Prop := M.Path M.init tr s

/-- The transitions that a list of labels produces, when every label is enabled. -/
def run (M : Machine σ α ρ) (s : σ) : List α → Option (List (Transition σ α ρ) × σ)
  | [] => some ([], s)
  | a :: as =>
    match M.step s a with
    | none => none
    | some (s', r) => (M.run s' as).map (fun out => (⟨s, a, r, s'⟩ :: out.1, out.2))

/-- The transitions of a schedule, from the initial state. -/
def trace (as : List α) : List (Transition σ α ρ) := ((M.run M.init as).map Prod.fst).getD []

/-- The state that a schedule ends in. -/
def final (as : List α) : σ := ((M.run M.init as).map Prod.snd).getD M.init

variable {M}
variable {s s' s'' : σ} {tr tr' : List (Transition σ α ρ)} {t : Transition σ α ρ}

theorem Path.single (h : M.Taken t) : M.Path t.source [t] t.target := .snoc .nil h

theorem Path.append (h : M.Path s tr s') (h' : M.Path s' tr' s'') : M.Path s (tr ++ tr') s'' := by
  induction h' with
  | nil => simpa using h
  | snoc _ ht ih =>
    rw [← List.append_assoc]
    exact .snoc ih ht

theorem Path.cons (ht : M.Taken t) (h : M.Path t.target tr s) : M.Path t.source (t :: tr) s :=
  (Path.single ht).append h

theorem Path.eq_of_nil (h : M.Path s [] s') : s = s' := by
  generalize hl : [] = whole at h
  cases h with
  | nil => rfl
  | snoc => simp at hl

theorem Path.unsnoc (h : M.Path s (tr ++ [t]) s') : M.Path s tr t.source ∧ M.Taken t ∧ t.target = s' := by
  generalize hl : tr ++ [t] = whole at h
  cases h with
  | nil => simp at hl
  | snoc hp ht =>
    obtain ⟨rfl, he⟩ := List.append_inj' hl rfl
    obtain rfl := (List.cons.inj he).1
    exact ⟨hp, ht, rfl⟩

theorem Path.split (h : M.Path s (tr ++ tr') s'') : ∃ s', M.Path s tr s' ∧ M.Path s' tr' s'' := by
  induction tr' using List.reverseRecOn generalizing s'' with
  | nil => exact ⟨s'', by simpa using h, .nil⟩
  | append_singleton tr' t ih =>
    rw [← List.append_assoc] at h
    obtain ⟨hp, ht, rfl⟩ := h.unsnoc
    obtain ⟨mid, h₁, h₂⟩ := ih hp
    exact ⟨mid, h₁, .snoc h₂ ht⟩

theorem Path.uncons (h : M.Path s (t :: tr) s') :
    s = t.source ∧ M.Taken t ∧ M.Path t.target tr s' := by
  obtain ⟨mid, h₁, h₂⟩ := (show M.Path s ([t] ++ tr) s' from h).split
  obtain ⟨hp, ht, rfl⟩ := (show M.Path s ([] ++ [t]) mid from h₁).unsnoc
  exact ⟨hp.eq_of_nil, ht, h₂⟩

/-- A transition of a path stands between a path to its source and one from its target. -/
theorem Path.around (h : M.Path s (tr ++ t :: tr') s') :
    M.Path s tr t.source ∧ M.Taken t ∧ M.Path t.target tr' s' := by
  obtain ⟨mid, h₁, h₂⟩ := h.split
  obtain ⟨rfl, ht, h₃⟩ := h₂.uncons
  exact ⟨h₁, ht, h₃⟩

theorem Path.of_mem (h : M.Path s tr s') (ht : t ∈ tr) :
    ∃ pre post, tr = pre ++ t :: post ∧ M.Path s pre t.source ∧ M.Taken t ∧ M.Path t.target post s' := by
  obtain ⟨pre, post, rfl⟩ := List.append_of_mem ht
  exact ⟨pre, post, rfl, h.around⟩

theorem run_path {as : List α} (h : M.run s as = some (tr, s')) : M.Path s tr s' := by
  induction as generalizing s tr with
  | nil =>
    obtain ⟨rfl, rfl⟩ := Prod.mk.inj (Option.some.inj h)
    exact .nil
  | cons a as ih =>
    unfold run at h
    split at h
    · cases h
    · rename_i mid r hstep
      obtain ⟨⟨rest, last⟩, hrest, heq⟩ := Option.map_eq_some_iff.mp h
      obtain ⟨rfl, rfl⟩ := Prod.mk.inj heq
      exact Path.cons (t := ⟨s, a, r, mid⟩) hstep (ih hrest)

theorem run_labels {as : List α} (h : M.run s as = some (tr, s')) : tr.map Transition.label = as := by
  induction as generalizing s tr with
  | nil =>
    obtain ⟨rfl, _⟩ := Prod.mk.inj (Option.some.inj h)
    rfl
  | cons a as ih =>
    unfold run at h
    split at h
    · cases h
    · obtain ⟨⟨rest, last⟩, hrest, heq⟩ := Option.map_eq_some_iff.mp h
      obtain ⟨rfl, rfl⟩ := Prod.mk.inj heq
      rw [List.map_cons, ih hrest]

/-- A path is the run of its own labels. -/
theorem Path.run_eq (h : M.Path s tr s') : M.run s (tr.map Transition.label) = some (tr, s') := by
  induction tr generalizing s with
  | nil =>
    obtain rfl := h.eq_of_nil
    rfl
  | cons t tr ih =>
    obtain ⟨rfl, ht, hp⟩ := h.uncons
    rw [List.map_cons, run, ht]
    simp [ih hp]

theorem run_scheduled (as : List α) (h : (M.run M.init as).isSome = true) :
    M.run M.init as = some (M.trace as, M.final as) := by
  obtain ⟨out, hout⟩ := Option.isSome_iff_exists.mp h
  rw [trace, final, hout]
  rfl

theorem scheduled (as : List α) (h : (M.run M.init as).isSome = true) : M.Execution (M.trace as) (M.final as) :=
  run_path (run_scheduled as h)

/-- What every admitted transition preserves holds all along an admitted path.
The invariant may mention the transitions taken so far. -/
theorem Path.admitted {A : Transition σ α ρ → Prop} {I : List (Transition σ α ρ) → σ → Prop}
    (h : M.Path s tr s') (hok : ∀ t ∈ tr, A t) (h0 : I [] s)
    (hstep : ∀ tr t, M.Path s tr t.source → M.Taken t → A t → I tr t.source → I (tr ++ [t]) t.target) :
    I tr s' := by
  induction h with
  | nil => exact h0
  | @snoc tr t hp ht ih =>
    exact hstep tr t hp ht (hok t (by simp)) (ih (fun u hu => hok u (by simp [hu])))

/-- What every transition preserves holds all along every path. -/
theorem Path.invariant {I : List (Transition σ α ρ) → σ → Prop} (h : M.Path s tr s') (h0 : I [] s)
    (hstep : ∀ tr t, M.Path s tr t.source → M.Taken t → I tr t.source → I (tr ++ [t]) t.target) : I tr s' :=
  h.admitted (A := fun _ => True) (fun _ _ => trivial) h0 (fun tr t hp ht _ => hstep tr t hp ht)

/-- Rank zero is within reach when every state above it has an admitted step down. -/
theorem exists_descent {A : Transition σ α ρ → Prop} {C : σ → Prop} (rank : σ → Nat)
    (hstep : ∀ s, C s → rank s ≠ 0 → ∃ t, M.Taken t ∧ t.source = s ∧ A t ∧ C t.target ∧ rank t.target < rank s)
    (h : C s) :
    ∃ tr s', M.Path s tr s' ∧ (∀ t ∈ tr, A t) ∧ C s' ∧ rank s' = 0 ∧ tr.length ≤ rank s := by
  induction hr : rank s using Nat.strongRecOn generalizing s with
  | _ n ih =>
    subst hr
    by_cases hzero : rank s = 0
    · exact ⟨[], s, .nil, by simp, h, hzero, Nat.zero_le _⟩
    · obtain ⟨t, ht, rfl, hA, hC, hlt⟩ := hstep s h hzero
      obtain ⟨tr, s', hp, hall, hend, hdone, hlen⟩ := ih (rank t.target) hlt hC rfl
      refine ⟨t :: tr, s', .cons ht hp, ?_, hend, hdone, ?_⟩
      · intro u hu
        rcases List.mem_cons.mp hu with rfl | hu
        · exact hA
        · exact hall u hu
      · rw [List.length_cons]
        omega

/-- A machine each of whose steps is at most one step of another projects to it. -/
theorem Path.project {σ' : Type*} {α' : Type*} {ρ' : Type*} {N : Machine σ' α' ρ'} (view : σ → σ')
    (f : Transition σ α ρ → Option (Transition σ' α' ρ'))
    (hsome : ∀ t u, M.Taken t → f t = some u → N.Taken u ∧ u.source = view t.source ∧ u.target = view t.target)
    (hnone : ∀ t, M.Taken t → f t = none → view t.target = view t.source) (h : M.Path s tr s') :
    N.Path (view s) (tr.filterMap f) (view s') := by
  induction h with
  | nil => exact .nil
  | @snoc tr t _ ht ih =>
    rw [filterMap_concat]
    cases hf : f t with
    | none =>
      rw [hnone t ht hf]
      simpa using ih
    | some u =>
      obtain ⟨hu, hsource, htarget⟩ := hsome t u ht hf
      rw [← hsource] at ih
      rw [← htarget]
      exact .snoc ih hu

/-- A machine each of whose steps is at most one step of another refines it, along
every run that meets a prefix-closed condition. The abstraction may use all that
has happened so far. -/
theorem Path.refines {σ' : Type*} {α' : Type*} {ρ' : Type*} {N : Machine σ' α' ρ'}
    {P : List (Transition σ α ρ) → Prop} (view : List (Transition σ α ρ) → σ → σ')
    (visible : Transition σ α ρ → Option (α' × ρ')) (h : M.Path s tr s') (hok : P tr)
    (hclosed : ∀ tr t, P (tr ++ [t]) → P tr)
    (hstep : ∀ tr t, M.Path s tr t.source → P (tr ++ [t]) → M.Taken t →
      visible t = none ∧ view (tr ++ [t]) t.target = view tr t.source ∨
      ∃ a r, visible t = some (a, r) ∧ N.step (view tr t.source) a = some (view (tr ++ [t]) t.target, r)) :
    ∃ tr', N.Path (view [] s) tr' (view tr s') ∧
      tr'.map (fun t => (t.label, t.output)) = tr.filterMap visible := by
  induction h with
  | nil => exact ⟨[], .nil, rfl⟩
  | @snoc tr t hp ht ih =>
    obtain ⟨tr', hpath, hmap⟩ := ih (hclosed tr t hok)
    rw [filterMap_concat]
    rcases hstep tr t hp hok ht with ⟨hv, hview⟩ | ⟨a, r, hv, hview⟩
    · rw [hv, hview]
      exact ⟨tr', hpath, by simpa using hmap⟩
    · refine ⟨tr' ++ [⟨view tr t.source, a, r, view (tr ++ [t]) t.target⟩], ?_, by simp [hv, hmap]⟩
      exact .snoc (t := ⟨view tr t.source, a, r, view (tr ++ [t]) t.target⟩) hpath hview

end Machine
end MvccLite.Library
