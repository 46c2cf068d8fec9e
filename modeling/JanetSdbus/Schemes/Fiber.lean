import Mathlib.Data.List.Basic

/-! Fibers on an event loop.

    A fiber computes, sends things, and suspends until the loop resumes it with a value; it ends by
    returning, by raising an error, or by leaving what its language defines (`abort`). `run` follows
    it to its end under given resumptions and keeps what was sent and where it was suspended.
    `pcall` follows it to its first suspension only: the caller gets it back there, and the loop does
    the rest (`pcall_run`). Sequencing and catching are what `run_bind` and `run_tryCatch` say. -/

namespace Schemes

/-- What a fiber does, from errors `ε`, resumptions `ι` and messages `ω`. Each of them ends. -/
inductive Fiber (ε ι ω α : Type*) where
  | ret (a : α)
  | raise (e : ε)
  | abort
  | emit (o : ω) (rest : Fiber ε ι ω α)
  | suspend (k : ι → Fiber ε ι ω α)

namespace Fiber
variable {ε ι ω ω' α β : Type*}

inductive Ending (ε α : Type*) where
  | returned (a : α)
  | raised (e : ε)
  | aborted

inductive Event (ω : Type*) where
  | out (o : ω)
  | pause

/-! ### Sequencing -/

def bind : Fiber ε ι ω α → (α → Fiber ε ι ω β) → Fiber ε ι ω β
  | .ret a, f => f a
  | .raise e, _ => .raise e
  | .abort, _ => .abort
  | .emit o rest, f => .emit o (rest.bind f)
  | .suspend k, f => .suspend fun i => (k i).bind f

/-- An error of the first fiber goes to the handler. -/
def tryCatch : Fiber ε ι ω α → (ε → Fiber ε ι ω α) → Fiber ε ι ω α
  | .ret a, _ => .ret a
  | .raise e, h => h e
  | .abort, _ => .abort
  | .emit o rest, h => .emit o (rest.tryCatch h)
  | .suspend k, h => .suspend fun i => (k i).tryCatch h

/-- The same fiber with its messages renamed. -/
def mapOut (g : ω → ω') : Fiber ε ι ω α → Fiber ε ι ω' α
  | .ret a => .ret a
  | .raise e => .raise e
  | .abort => .abort
  | .emit o rest => .emit (g o) (rest.mapOut g)
  | .suspend k => .suspend fun i => (k i).mapOut g

/-! ### Running -/

/-- What happens until the end, if the `n`-th resumption is `inp n`. -/
def run : Fiber ε ι ω α → (ℕ → ι) → List (Event ω) × Ending ε α
  | .ret a, _ => ([], .returned a)
  | .raise e, _ => ([], .raised e)
  | .abort, _ => ([], .aborted)
  | .emit o rest, inp => (.out o :: (rest.run inp).1, (rest.run inp).2)
  | .suspend k, inp =>
    let t := (k (inp 0)).run fun n => inp (n + 1)
    (.pause :: t.1, t.2)

/-- What was sent. -/
def outs : List (Event ω) → List ω
  | [] => []
  | .out o :: es => o :: outs es
  | .pause :: es => outs es

def pauses : List (Event ω) → ℕ
  | [] => 0
  | .out _ :: es => pauses es
  | .pause :: es => pauses es + 1

@[simp] theorem outs_append (es fs : List (Event ω)) : outs (es ++ fs) = outs es ++ outs fs := by
  induction es with
  | nil => rfl
  | cons e es ih => cases e <;> simp [outs, ih]

@[simp] theorem pauses_append (es fs : List (Event ω)) :
    pauses (es ++ fs) = pauses es + pauses fs := by
  induction es with
  | nil => simp [pauses]
  | cons e es ih =>
    cases e with
    | out o => simp [pauses, ih]
    | pause =>
      simp only [List.cons_append, pauses, ih]
      omega

/-- The second fiber takes up where the first returned. -/
theorem run_bind (f : Fiber ε ι ω α) (g : α → Fiber ε ι ω β) (inp : ℕ → ι) :
    (f.bind g).run inp = match f.run inp with
      | (es, .returned a) =>
        (es ++ ((g a).run fun n => inp (n + pauses es)).1, ((g a).run fun n => inp (n + pauses es)).2)
      | (es, .raised e) => (es, .raised e)
      | (es, .aborted) => (es, .aborted) := by
  induction f generalizing inp with
  | ret a => rfl
  | raise e => rfl
  | abort => rfl
  | emit o rest ih =>
    simp only [bind, run, ih]
    split <;> next h => simp [h, pauses]
  | suspend k ih =>
    simp only [bind, run, ih]
    split <;> next h => simp [h, pauses, Nat.add_assoc]

/-- The handler takes up where the fiber raised. -/
theorem run_tryCatch (f : Fiber ε ι ω α) (h : ε → Fiber ε ι ω α) (inp : ℕ → ι) :
    (f.tryCatch h).run inp = match f.run inp with
      | (es, .raised e) =>
        (es ++ ((h e).run fun n => inp (n + pauses es)).1, ((h e).run fun n => inp (n + pauses es)).2)
      | (es, .returned a) => (es, .returned a)
      | (es, .aborted) => (es, .aborted) := by
  induction f generalizing inp with
  | ret a => rfl
  | raise e => rfl
  | abort => rfl
  | emit o rest ih =>
    simp only [tryCatch, run, ih]
    split <;> next h => simp [h, pauses]
  | suspend k ih =>
    simp only [tryCatch, run, ih]
    split <;> next h => simp [h, pauses, Nat.add_assoc]

theorem run_mapOut (g : ω → ω') (f : Fiber ε ι ω α) (inp : ℕ → ι) :
    outs ((f.mapOut g).run inp).1 = (outs (f.run inp).1).map g ∧
      pauses ((f.mapOut g).run inp).1 = pauses (f.run inp).1 ∧
      ((f.mapOut g).run inp).2 = (f.run inp).2 := by
  induction f generalizing inp with
  | ret a => exact ⟨rfl, rfl, rfl⟩
  | raise e => exact ⟨rfl, rfl, rfl⟩
  | abort => exact ⟨rfl, rfl, rfl⟩
  | emit o rest ih =>
    obtain ⟨houts, hpauses, hend⟩ := ih inp
    simp [mapOut, run, outs, pauses, houts, hpauses, hend]
  | suspend k ih =>
    obtain ⟨houts, hpauses, hend⟩ := ih (inp 0) fun n => inp (n + 1)
    simp [mapOut, run, outs, pauses, houts, hpauses, hend]

/-! ### The first suspension -/

/-- How a protected call comes back. -/
inductive Signal (ε ι ω α : Type*) where
  | done (e : Ending ε α)
  | event (k : ι → Fiber ε ι ω α)

/-- What is sent before the first suspension, and how the call comes back. -/
def pcall : Fiber ε ι ω α → List ω × Signal ε ι ω α
  | .ret a => ([], .done (.returned a))
  | .raise e => ([], .done (.raised e))
  | .abort => ([], .done .aborted)
  | .emit o rest => (o :: rest.pcall.1, rest.pcall.2)
  | .suspend k => ([], .event k)

/-- A run is the part up to the first suspension, and then what the loop resumes. -/
theorem pcall_run (f : Fiber ε ι ω α) (inp : ℕ → ι) : match f.pcall with
    | (os, .done e) => outs (f.run inp).1 = os ∧ pauses (f.run inp).1 = 0 ∧ (f.run inp).2 = e
    | (os, .event k) => 0 < pauses (f.run inp).1 ∧
      outs (f.run inp).1 = os ++ outs ((k (inp 0)).run fun n => inp (n + 1)).1 ∧
      (f.run inp).2 = ((k (inp 0)).run fun n => inp (n + 1)).2 := by
  induction f with
  | ret a => exact ⟨rfl, rfl, rfl⟩
  | raise e => exact ⟨rfl, rfl, rfl⟩
  | abort => exact ⟨rfl, rfl, rfl⟩
  | emit o rest ih =>
    simp only [pcall]
    split at ih
    · next h => simpa [h, run, outs, pauses] using ih
    · next h => simpa [h, run, outs, pauses] using ih
  | suspend k _ => exact ⟨Nat.succ_pos _, rfl, rfl⟩

end Fiber

end Schemes
