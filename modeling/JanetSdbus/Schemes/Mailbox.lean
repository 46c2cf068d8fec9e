import JanetSdbus.Schemes.Run
import Mathlib.Data.List.Nodup

/-! Pending operations and their answers.

    An operation is started with a channel, and is pending until it gets its last answer, is dropped,
    or everything is shut. Answers to a channel are in the order in which they came. An operation is
    told what is meant for it while it is pending, and nothing else, whatever the others do
    (`exec_told`). -/

namespace Schemes.Mailbox
open Schemes.Run

variable {ι χ τ : Type*} [DecidableEq ι]

/-- The pending operations, newest first, and the answers that were given, oldest first. -/
structure State (ι χ τ : Type*) where
  pending : List (ι × χ)
  sent : List (ι × χ × τ)

inductive Action (ι χ τ : Type*) where
  | start (o : ι) (c : χ)
  | tell (o : ι) (t : τ)
  | finish (o : ι) (t : τ)
  | drop (o : ι)
  | shut (t : τ)

def State.empty : State ι χ τ := ⟨[], []⟩

def State.keys (s : State ι χ τ) : List ι := s.pending.map Prod.fst

def State.answer (s : State ι χ τ) (o : ι) (t : τ) : Option (State ι χ τ) :=
  (s.pending.lookup o).map fun c => { s with sent := s.sent ++ [(o, c, t)] }

def State.forget (s : State ι χ τ) (o : ι) : State ι χ τ :=
  { s with pending := s.pending.filter fun oc => oc.1 ≠ o }

def step (s : State ι χ τ) : Action ι χ τ → Option (State ι χ τ)
  | .start o c => if o ∈ s.keys then none else some { s with pending := (o, c) :: s.pending }
  | .tell o t => s.answer o t
  | .finish o t => (s.answer o t).map (·.forget o)
  | .drop o => some (s.forget o)
  | .shut t => some { pending := [], sent := s.sent ++ s.pending.map fun oc => (oc.1, oc.2, t) }

/-! ### One operation -/

/-- What operation `o` was told. -/
def State.told (s : State ι χ τ) (o : ι) : List τ := (s.sent.filter fun a => a.1 = o).map fun a => a.2.2

/-- What an action tells operation `o`, which is pending or not. -/
def Action.told (o : ι) (pending : Bool) : Action ι χ τ → List τ
  | .tell o' t | .finish o' t => if o' = o then [t] else []
  | .shut t => if pending then [t] else []
  | _ => []

/-- Whether it is pending afterwards. -/
def Action.leaves (o : ι) (pending : Bool) : Action ι χ τ → Bool
  | .start o' _ => decide (o' = o) || pending
  | .tell _ _ => pending
  | .finish o' _ | .drop o' => decide (o' ≠ o) && pending
  | .shut _ => false

/-- What operation `o` is told by a run, regardless of the other operations. -/
def heard (o : ι) : Bool → List (Action ι χ τ) → List τ
  | _, [] => []
  | pending, a :: as => a.told o pending ++ heard o (a.leaves o pending) as

variable {s s' : State ι χ τ} {o o' : ι} {t : τ} {a : Action ι χ τ}

theorem answer_eq_some (h : s.answer o t = some s') :
    ∃ c, s' = { s with sent := s.sent ++ [(o, c, t)] } := by
  obtain ⟨c, -, rfl⟩ := Option.map_eq_some_iff.mp h
  exact ⟨c, rfl⟩

theorem keys_forget : (s.forget o).keys = s.keys.filter fun o' => o' ≠ o := by
  rw [State.keys, State.forget, State.keys, List.filter_map]
  rfl

theorem told_append {sent : List (ι × χ × τ)} :
    State.told { s with sent := s.sent ++ sent } o = s.told o ++ (sent.filter fun a => a.1 = o).map fun a => a.2.2 := by
  rw [State.told, List.filter_append, List.map_append, State.told]

theorem told_answer (h : s.answer o' t = some s') : s'.told o = s.told o ++ if o' = o then [t] else [] := by
  obtain ⟨c, rfl⟩ := answer_eq_some h
  rw [told_append]
  by_cases ho : o' = o
  · simp [ho]
  · simp [ho]

/-- Of the operations that are pending each gets one answer when everything is shut. -/
theorem told_shut {l : List (ι × χ)} (hnodup : (l.map Prod.fst).Nodup) :
    ((l.map fun oc => (oc.1, oc.2, t)).filter fun a => a.1 = o).map (fun a => a.2.2) =
      if o ∈ l.map Prod.fst then [t] else [] := by
  induction l with
  | nil => rfl
  | cons oc l ih =>
    rw [List.map_cons, List.nodup_cons] at hnodup
    have ih := ih hnodup.2
    by_cases ho : oc.1 = o
    · have hl : o ∉ l.map Prod.fst := ho ▸ hnodup.1
      rw [if_neg hl] at ih
      simp only [List.map_cons, ho, decide_true, List.filter_cons_of_pos, List.mem_cons_self, if_true, ih]
    · have hmem : o ∈ (oc :: l).map Prod.fst ↔ o ∈ l.map Prod.fst := by
        rw [List.map_cons, List.mem_cons, or_iff_right (Ne.symm ho)]
      rw [List.map_cons, List.filter_cons_of_neg (by simpa using ho), ih]
      simp only [hmem]

/-! ### Runs -/

theorem nodup_step (hnodup : s.keys.Nodup) (h : step s a = some s') : s'.keys.Nodup := by
  cases a with
  | start o c =>
    obtain ⟨hnew, h⟩ := Option.ite_none_left_eq_some.mp h
    obtain rfl := Option.some.inj h
    exact List.nodup_cons.mpr ⟨hnew, hnodup⟩
  | tell o t =>
    obtain ⟨c, rfl⟩ := answer_eq_some h
    exact hnodup
  | finish o t =>
    obtain ⟨m, hm, rfl⟩ := Option.map_eq_some_iff.mp h
    obtain ⟨c, rfl⟩ := answer_eq_some hm
    rw [keys_forget]
    exact hnodup.filter _
  | drop o =>
    obtain rfl := Option.some.inj h
    rw [keys_forget]
    exact hnodup.filter _
  | shut t =>
    obtain rfl := Option.some.inj h
    exact List.nodup_nil

theorem mem_forget : o ∈ (s.forget o').keys ↔ o' ≠ o ∧ o ∈ s.keys := by
  rw [keys_forget, List.mem_filter, decide_eq_true_eq, and_comm, ne_comm]

theorem leaves_step (h : step s a = some s') : decide (o ∈ s'.keys) = a.leaves o (decide (o ∈ s.keys)) := by
  rw [Bool.eq_iff_iff, decide_eq_true_eq]
  cases a with
  | start o' c =>
    obtain ⟨-, h⟩ := Option.ite_none_left_eq_some.mp h
    obtain rfl := Option.some.inj h
    rw [Action.leaves, Bool.or_eq_true, decide_eq_true_eq, decide_eq_true_eq, State.keys, List.map_cons, List.mem_cons,
      eq_comm]
    rfl
  | tell o' t =>
    obtain ⟨c, rfl⟩ := answer_eq_some h
    exact decide_eq_true_iff.symm
  | finish o' t =>
    obtain ⟨m, hm, rfl⟩ := Option.map_eq_some_iff.mp h
    obtain ⟨c, rfl⟩ := answer_eq_some hm
    rw [mem_forget, Action.leaves, Bool.and_eq_true, decide_eq_true_eq, decide_eq_true_eq]
    rfl
  | drop o' =>
    obtain rfl := Option.some.inj h
    rw [mem_forget, Action.leaves, Bool.and_eq_true, decide_eq_true_eq, decide_eq_true_eq]
  | shut t =>
    obtain rfl := Option.some.inj h
    exact ⟨fun h => absurd h List.not_mem_nil, fun h => absurd h Bool.false_ne_true⟩

theorem told_step (hnodup : s.keys.Nodup) (h : step s a = some s') :
    s'.told o = s.told o ++ a.told o (decide (o ∈ s.keys)) := by
  cases a with
  | start o' c =>
    obtain ⟨-, h⟩ := Option.ite_none_left_eq_some.mp h
    obtain rfl := Option.some.inj h
    exact (List.append_nil _).symm
  | tell o' t => exact told_answer h
  | finish o' t =>
    obtain ⟨m, hm, rfl⟩ := Option.map_eq_some_iff.mp h
    have htold := told_answer (o := o) hm
    exact htold
  | drop o' =>
    obtain rfl := Option.some.inj h
    exact (List.append_nil _).symm
  | shut t =>
    obtain rfl := Option.some.inj h
    simp only [Action.told, decide_eq_true_eq]
    rw [State.keys, ← told_shut hnodup, ← told_append]
    rfl

/-- An operation hears what is meant for it while it is pending, and nothing else. -/
theorem exec_told {as : List (Action ι χ τ)} (hnodup : s.keys.Nodup) (h : exec step s as = some s') :
    s'.told o = s.told o ++ heard o (decide (o ∈ s.keys)) as := by
  induction as generalizing s with
  | nil =>
    obtain rfl : s = s' := Option.some.inj h
    exact (List.append_nil _).symm
  | cons a as ih =>
    obtain ⟨m, hm, h⟩ := Option.bind_eq_some_iff.mp h
    rw [ih (nodup_step hnodup hm) h, told_step hnodup hm, leaves_step hm, heard, List.append_assoc]

end Schemes.Mailbox
