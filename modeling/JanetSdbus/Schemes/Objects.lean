import Mathlib.Data.List.Basic
import Mathlib.Logic.Function.Basic

/-! Agents that work on objects.

    Each agent holds at most one object, a schedule says whose turn it is, and an operation returns a
    result and may change the object it is applied to. What an agent sees in a schedule is what it
    would see on its own (`solo`) if nobody else holds its object (`results_run`), or if no operation
    changes it (`results_fixed`). -/

namespace Schemes.Objects

variable {ι κ σ ο ρ : Type*}

section entries
variable [DecidableEq ι]

/-- The entries of agent `i`, in order. -/
def entriesOf {α : Type*} (i : ι) (l : List (ι × α)) : List α :=
  l.filterMap fun x => if x.1 = i then some x.2 else none

@[simp] theorem entriesOf_nil {α : Type*} (i : ι) : entriesOf i ([] : List (ι × α)) = [] := rfl

theorem entriesOf_self {α : Type*} (i : ι) (a : α) (l : List (ι × α)) :
    entriesOf i ((i, a) :: l) = a :: entriesOf i l := by
  simp [entriesOf]

theorem entriesOf_ne {α : Type*} {i j : ι} (h : j ≠ i) (a : α) (l : List (ι × α)) :
    entriesOf i ((j, a) :: l) = entriesOf i l := by
  simp [entriesOf, h]

/-- An agent alone has all the entries. -/
theorem entriesOf_map {α : Type*} (i : ι) (as : List α) :
    entriesOf i (as.map fun a => (i, a)) = as := by
  induction as with
  | nil => rfl
  | cons a as ih => rw [List.map_cons, entriesOf_self, ih]

end entries

section runs
variable [DecidableEq κ] (op : ο → σ → ρ × σ) (holds : ι → Option κ)

/-- The results of a schedule; an agent without an object does nothing. -/
def run : (κ → σ) → List (ι × ο) → List (ι × ρ)
  | _, [] => []
  | objs, (i, o) :: rest =>
    match holds i with
    | none => run objs rest
    | some k => (i, (op o (objs k)).1) :: run (Function.update objs k (op o (objs k)).2) rest

/-- The results of some operations on one object. -/
def solo : σ → List ο → List ρ
  | _, [] => []
  | s, o :: os => (op o s).1 :: solo (op o s).2 os

variable {op holds}

theorem run_none {objs : κ → σ} {i : ι} (h : holds i = none) (o : ο) (rest : List (ι × ο)) :
    run op holds objs ((i, o) :: rest) = run op holds objs rest := by
  simp only [run, h]

theorem run_some {objs : κ → σ} {i : ι} {k : κ} (h : holds i = some k) (o : ο) (rest : List (ι × ο)) :
    run op holds objs ((i, o) :: rest) =
      (i, (op o (objs k)).1) :: run op holds (Function.update objs k (op o (objs k)).2) rest := by
  simp only [run, h]

variable [DecidableEq ι]

/-- An agent without an object sees nothing. -/
theorem results_none {i : ι} (hi : holds i = none) (objs : κ → σ) (steps : List (ι × ο)) :
    entriesOf i (run op holds objs steps) = [] := by
  induction steps generalizing objs with
  | nil => rfl
  | cons step rest ih =>
    obtain ⟨j, o⟩ := step
    cases hj : holds j with
    | none => rw [run_none hj]; exact ih objs
    | some k =>
      have hji : j ≠ i := by rintro rfl; rw [hi] at hj; simp at hj
      rw [run_some hj, entriesOf_ne hji]
      exact ih _

/-- Nobody else holds the object of `i`. -/
theorem results_run {i : ι} {k : κ} (hi : holds i = some k) (halone : ∀ j, j ≠ i → holds j ≠ some k)
    (objs : κ → σ) (steps : List (ι × ο)) :
    entriesOf i (run op holds objs steps) = solo op (objs k) (entriesOf i steps) := by
  induction steps generalizing objs with
  | nil => rfl
  | cons step rest ih =>
    obtain ⟨j, o⟩ := step
    by_cases hji : j = i
    · subst hji
      rw [run_some hi, entriesOf_self, entriesOf_self, solo, ih, Function.update_self]
    · rw [entriesOf_ne hji]
      cases hj : holds j with
      | none => rw [run_none hj]; exact ih objs
      | some l =>
        have hkl : k ≠ l := by rintro rfl; exact halone j hji hj
        rw [run_some hj, entriesOf_ne hji, ih, Function.update_of_ne hkl]

/-- No operation changes the object of `i`, whoever else holds it. -/
theorem results_fixed {i : ι} {k : κ} {s : σ} (hi : holds i = some k) (hfix : ∀ o, (op o s).2 = s)
    (objs : κ → σ) (hs : objs k = s) (steps : List (ι × ο)) :
    entriesOf i (run op holds objs steps) = solo op s (entriesOf i steps) := by
  induction steps generalizing objs with
  | nil => rfl
  | cons step rest ih =>
    obtain ⟨j, o⟩ := step
    have hkeep : ∀ l, (Function.update objs l (op o (objs l)).2) k = s := by
      intro l
      by_cases hkl : k = l
      · subst hkl
        rw [Function.update_self, hs, hfix]
      · rw [Function.update_of_ne hkl, hs]
    by_cases hji : j = i
    · subst hji
      rw [run_some hi, entriesOf_self, entriesOf_self, solo, hfix, ih _ (hkeep k), hs]
    · rw [entriesOf_ne hji]
      cases hj : holds j with
      | none => rw [run_none hj]; exact ih objs hs
      | some l => rw [run_some hj, entriesOf_ne hji]; exact ih _ (hkeep l)

end runs

end Schemes.Objects
