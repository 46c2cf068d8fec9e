import Mathlib.Data.List.Basic

/-! Runs of a partial step function.

    A system is a step function `σ → α → Option σ` (`none` when the step is not enabled). `exec`
    performs a list of steps. `Along P` says that `P` holds in every state a list of steps passes
    through, `Meets ok` that every performed step meets `ok` in the state before it. The three rules
    below are the only inductions over runs that a development on top of it needs. -/

namespace Schemes.Run

variable {σ α : Type*} (step : σ → α → Option σ)

/-- Perform the steps in order; `none` as soon as one is not enabled. -/
def exec : σ → List α → Option σ
  | s, [] => some s
  | s, a :: as => (step s a).bind fun s' => exec s' as

/-- `P` holds in every state reached, the first one included. -/
def Along (P : σ → Prop) : σ → List α → Prop
  | s, [] => P s
  | s, a :: as => P s ∧ ∀ s', step s a = some s' → Along P s' as

/-- Every step performed meets `ok` in the state it is taken from. -/
def Meets (ok : σ → α → Prop) : σ → List α → Prop
  | _, [] => True
  | s, a :: as => ∀ s', step s a = some s' → ok s a ∧ Meets ok s' as

/-- `P` holds of every step performed, with the states before and after it. -/
def Each (P : σ → α → σ → Prop) : σ → List α → Prop
  | _, [] => True
  | s, a :: as => ∀ s', step s a = some s' → P s a s' ∧ Each P s' as

variable {step}

theorem Along.head {P : σ → Prop} {s : σ} : ∀ {as : List α}, Along step P s as → P s
  | [], h => h
  | _ :: _, h => h.1

/-- What holds along a run holds where it ends. -/
theorem Along.last {P : σ → Prop} : ∀ {as : List α} {s s' : σ},
    Along step P s as → exec step s as = some s' → P s'
  | [], _, _, h, hs => by obtain rfl := Option.some.inj hs; exact h
  | a :: as, s, s', h, hs => by
    cases hm : step s a with
    | none => simp [exec, hm] at hs
    | some m => exact (h.2 m hm).last (by simpa [exec, hm] using hs)

theorem Meets.append {ok : σ → α → Prop} : ∀ {as bs : List α} {s m : σ},
    Meets step ok s (as ++ bs) → exec step s as = some m →
      Meets step ok s as ∧ Meets step ok m bs
  | [], bs, s, m, h, hm => by
    obtain rfl : s = m := Option.some.inj hm
    exact ⟨trivial, h⟩
  | a :: as, bs, s, m, h, hm => by
    cases hs : step s a with
    | none => simp [exec, hs] at hm
    | some s' =>
      have hm' : exec step s' as = some m := by simpa [exec, hs] using hm
      obtain ⟨hok, hrest⟩ := h s' hs
      obtain ⟨h₁, h₂⟩ := hrest.append hm'
      refine ⟨?_, h₂⟩
      intro s'' hs''
      obtain rfl : s' = s'' := Option.some.inj (hs.symm.trans hs'')
      exact ⟨hok, h₁⟩

theorem Meets.mono {ok ok' : σ → α → Prop} (himp : ∀ s a, ok s a → ok' s a) :
    ∀ {as : List α} {s : σ}, Meets step ok s as → Meets step ok' s as
  | [], _, _ => trivial
  | a :: _, s, h => fun s' hs => ⟨himp s a (h s' hs).1, ((h s' hs).2).mono himp⟩

/-- A condition on the steps alone joins one on the states. -/
theorem Meets.and {ok : σ → α → Prop} {p : α → Prop} :
    ∀ {as : List α} {s : σ}, Meets step ok s as → (∀ a ∈ as, p a) →
      Meets step (fun s a => ok s a ∧ p a) s as
  | [], _, _, _ => trivial
  | a :: _, _, h, hp => fun s' hs =>
    ⟨⟨(h s' hs).1, hp a (by simp)⟩, (h s' hs).2.and fun b hb => hp b (List.mem_cons_of_mem _ hb)⟩

/-- A condition on the steps alone. -/
theorem Meets.of_forall {p : α → Prop} :
    ∀ {as : List α} {s : σ}, (∀ a ∈ as, p a) → Meets step (fun _ a => p a) s as
  | [], _, _ => trivial
  | a :: _, _, hp => fun _ _ =>
    ⟨hp a (by simp), Meets.of_forall fun b hb => hp b (List.mem_cons_of_mem _ hb)⟩

/-- The invariant rule: what every allowed step preserves holds at the end of every allowed run. -/
theorem Meets.invariant {I : σ → Prop} {ok : σ → α → Prop}
    (hstep : ∀ s a s', I s → ok s a → step s a = some s' → I s') :
    ∀ {as : List α} {s s' : σ}, I s → Meets step ok s as → exec step s as = some s' → I s'
  | [], s, s', hi, _, h => by obtain rfl : s = s' := Option.some.inj h; exact hi
  | a :: as, s, s', hi, hm, h => by
    cases hs : step s a with
    | none => simp [exec, hs] at h
    | some m =>
      obtain ⟨hok, hrest⟩ := hm m hs
      exact hrest.invariant hstep (hstep s a m hi hok hs) (by simpa [exec, hs] using h)

/-- The same rule, read at every state on the way. -/
theorem Meets.along {I : σ → Prop} {ok : σ → α → Prop}
    (hstep : ∀ s a s', I s → ok s a → step s a = some s' → I s') :
    ∀ {as : List α} {s : σ}, I s → Meets step ok s as → Along step I s as
  | [], _, hi, _ => hi
  | a :: _, s, hi, hm =>
    ⟨hi, fun s' hs => (hm s' hs).2.along hstep (hstep s a s' hi (hm s' hs).1 hs)⟩

/-- What an allowed step does from a state with the invariant, every step of an allowed run does. -/
theorem Meets.each {I : σ → Prop} {ok : σ → α → Prop} {P : σ → α → σ → Prop}
    (hstep : ∀ s a s', I s → ok s a → step s a = some s' → I s')
    (hP : ∀ s a s', I s → ok s a → step s a = some s' → P s a s') :
    ∀ {as : List α} {s : σ}, I s → Meets step ok s as → Each step P s as
  | [], _, _, _ => trivial
  | a :: _, s, hi, hm => fun s' hs =>
    ⟨hP s a s' hi (hm s' hs).1 hs, (hm s' hs).2.each hstep hP (hstep s a s' hi (hm s' hs).1 hs)⟩

theorem Along.mono {P Q : σ → Prop} (himp : ∀ s, P s → Q s) :
    ∀ {as : List α} {s : σ}, Along step P s as → Along step Q s as
  | [], s, h => himp s h
  | _ :: _, s, h => ⟨himp s h.1, fun s' hs => (h.2 s' hs).mono himp⟩

/-- The exactness rule: when an allowed step keeps the invariant and a step that is not allowed
    breaks `P` at once, `P` holds along a run exactly when every step of it is allowed. -/
theorem along_iff_meets {I P : σ → Prop} {ok : σ → α → Prop} (hP : ∀ s, I s → P s)
    (hstep : ∀ s a s', I s → ok s a → step s a = some s' → I s')
    (hbreak : ∀ s a s', I s → ¬ ok s a → step s a = some s' → ¬ P s') :
    ∀ {as : List α} {s : σ}, I s → (Along step P s as ↔ Meets step ok s as)
  | [], s, hi => ⟨fun _ => trivial, fun _ => hP s hi⟩
  | a :: as, s, hi => by
    constructor
    · rintro ⟨_, h⟩ s' hs
      have hok : ok s a := by
        by_contra hno
        exact hbreak s a s' hi hno hs (h s' hs).head
      exact ⟨hok, (along_iff_meets hP hstep hbreak (hstep s a s' hi hok hs)).mp (h s' hs)⟩
    · intro h
      refine ⟨hP s hi, fun s' hs => ?_⟩
      obtain ⟨hok, hrest⟩ := h s' hs
      exact (along_iff_meets hP hstep hbreak (hstep s a s' hi hok hs)).mpr hrest

/-! ### Refinement -/

theorem exec_append {as bs : List α} {s : σ} : exec step s (as ++ bs) = (exec step s as).bind (exec step · bs) := by
  induction as generalizing s with
  | nil => rfl
  | cons a as ih =>
    rw [List.cons_append, exec, exec]
    cases step s a with
    | none => rfl
    | some s' => exact ih

variable {τ β : Type*} {step' : τ → β → Option τ}

/-- What the steps of a run ask of a second system. -/
def labels (step : σ → α → Option σ) (label : σ → α → List β) : σ → List α → List β
  | _, [] => []
  | s, a :: as => label s a ++ ((step s a).elim [] fun s' => labels step label s' as)

/-- The refinement rule: a system does what another does if each allowed step does. -/
theorem Meets.refines {I : σ → Prop} {ok : σ → α → Prop} {abs : σ → τ} {label : σ → α → List β}
    (hstep : ∀ s a s', I s → ok s a → step s a = some s' → I s')
    (hsim : ∀ s a s', I s → ok s a → step s a = some s' → exec step' (abs s) (label s a) = some (abs s'))
    {as : List α} {s s' : σ} (hi : I s) (hm : Meets step ok s as) (h : exec step s as = some s') :
    exec step' (abs s) (labels step label s as) = some (abs s') := by
  induction as generalizing s with
  | nil =>
    obtain rfl : s = s' := Option.some.inj h
    rfl
  | cons a as ih =>
    obtain ⟨m, hs, h⟩ := Option.bind_eq_some_iff.mp h
    obtain ⟨hok, hm⟩ := hm m hs
    rw [labels, exec_append, hsim s a m hi hok hs, hs]
    exact ih (hstep s a m hi hok hs) hm h

end Schemes.Run
