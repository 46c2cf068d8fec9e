import JanetSdbus.Async.Runs

/-! The three list functions of async.c on any heap.

    `queue_pending` and `dequeue_pending` refine `p :: s` and `s.erase p` wherever the links spell out
    a sequence `s`, and write no links outside of it. `closeall_pending` reads the successor of a
    record before it does anything to it: whatever the body of its loop does to the record it visits,
    the records visited are the sequence, in order. Its own body unlinks and frees that record, and
    a closed channel ends it. -/

namespace JanetSdbus.Async
open Schemes.LinkedList Schemes.Run

variable {w w' : World} {p x : Ptr} {q s l : List Ptr}

/-! ### The loop -/

/-- The records that the loop of `closeall_pending` visits when `body` stands in it, and how it ends. -/
def traverse (body : World → Ptr → Outcome) : ℕ → Option Ptr → World → List Ptr × Outcome
  | _, none, w => ([], .done w)
  | 0, some _, _ => ([], .diverged)
  | n + 1, some p, w =>
    match body w p with
    | .done w' => ((traverse body n (w.heap p).next w').map (p :: ·) id)
    | o => ([p], o)

/-- The loop of `closeall_pending` is the one with its own body. -/
theorem traverse_closeall (tuple : Tuple) (n : ℕ) (cur : Option Ptr) (w : World) :
    (traverse (closeallVisit tuple) n cur w).2 = closeallLoop tuple n cur w := by
  induction n generalizing cur w with
  | zero => cases cur <;> rfl
  | succ n ih =>
    cases cur with
    | none => rfl
    | some p =>
      rw [closeallLoop_some, traverse]
      cases hv : closeallVisit tuple w p with
      | done w' => exact ih (w.heap p).next w'
      | raised w' e => rfl
      | diverged => rfl

/-- The loop has visited the sequence `s`, or a body that raised has left it: `R` holds of the record
    it stood at and the state it left. -/
inductive Visits (R : Ptr → World → Prop) (s : List Ptr) : List Ptr × Outcome → Prop
  | all (w' : World) : Visits R s (s, .done w')
  | left (l₁ l₂ : List Ptr) (p : Ptr) (w' : World) (e : String) (hs : s = l₁ ++ p :: l₂) (hr : R p w') :
    Visits R s (l₁ ++ [p], .raised w' e)

/-- Another record in front. -/
theorem Visits.cons {R : Ptr → World → Prop} {r : List Ptr × Outcome} (h : Visits R s r) (p : Ptr) :
    Visits R (p :: s) (r.map (p :: ·) id) := by
  cases h with
  | all w' => exact .all w'
  | left l₁ l₂ x w' e hs hr => exact .left (p :: l₁) l₂ x w' e (by rw [hs, List.cons_append]) hr

/-- The loop rule. `J l` holds when `l` is left to visit: the links say so, and the body keeps it. -/
theorem traverse_visits {body : World → Ptr → Outcome} {J : List Ptr → World → Prop} {R : Ptr → World → Prop}
    (hnext : ∀ p l w, J (p :: l) w → (w.heap p).next = l.head?)
    (hbody : ∀ p l w, J (p :: l) w → (body w p).Ends (J l) (R p)) :
    ∀ {l : List Ptr} {n : ℕ} {w : World}, J l w → l.length ≤ n → Visits R l (traverse body n l.head? w)
  | [], n, w, _, _ => by
    have hend : traverse body n none w = ([], .done w) := by cases n <;> rfl
    rw [List.head?_nil, hend]
    exact .all w
  | p :: l, 0, _, _, hn => by simp at hn
  | p :: l, n + 1, w, hJ, hn => by
    have hkeep := hbody p l w hJ
    rw [List.head?_cons, traverse, hnext p l w hJ]
    cases hb : body w p with
    | diverged => rw [hb] at hkeep; exact absurd hkeep id
    | raised w' e => rw [hb] at hkeep; exact .left [] l p w' e rfl hkeep
    | done w' =>
      rw [hb] at hkeep
      exact (traverse_visits hnext hbody hkeep (Nat.le_of_succ_le_succ hn)).cons p

/-- A body that changes the record it visits, and leaves the successors of the others alone. -/
theorem traverse_body (h : Repr w.links s) {body : World → Ptr → World}
    (hbody : ∀ w p x, x ≠ p → ((body w p).heap x).next = (w.heap x).next) {n : ℕ} (hn : s.length ≤ n) :
    Visits (fun _ _ => False) s (traverse (fun w p => .done (body w p)) n w.conn.queue w) := by
  have hspells : ∀ {l : List Ptr} {w : World}, l.Nodup ∧ (∀ l₁ p l₂, l = l₁ ++ p :: l₂ →
      (w.heap p).next = l₂.head?) → l.length ≤ n →
      Visits (fun _ _ => False) l (traverse (fun w p => .done (body w p)) n l.head? w) := by
    intro l w hJ hl
    refine traverse_visits (J := fun l w => l.Nodup ∧ ∀ l₁ p l₂, l = l₁ ++ p :: l₂ →
      (w.heap p).next = l₂.head?) (fun p l w hJ => hJ.2 [] p l rfl) (fun p l w hJ => ?_) hJ hl
    obtain ⟨hp, hnd⟩ := List.nodup_cons.mp hJ.1
    refine ⟨hnd, fun l₁ x l₂ hl => ?_⟩
    have hxp : x ≠ p := by
      rintro rfl
      exact hp (by rw [hl]; simp)
    rw [hbody w p x hxp]
    exact hJ.2 (p :: l₁) x l₂ (by rw [hl, List.cons_append])
  have hhead : w.conn.queue = s.head? := h.head_eq
  rw [hhead]
  refine hspells ⟨h.nodup, fun l₁ p l₂ hs => ?_⟩ hn
  rw [hs] at h
  exact h.fields_at.1

/-! ### The body of `closeall_pending` -/

/-- Each record's handle is that of its own slot. -/
def HoldsOwn (w : World) : Prop := ∀ p s, (w.handles p).slot = some s → s = p

theorem HoldsOwn.release (h : HoldsOwn w) (p : Ptr) : HoldsOwn (releaseHandle w p) := by
  intro x s hs
  cases hp : (w.handles p).slot with
  | none => rw [releaseHandle_none hp] at hs; exact h x s hs
  | some y =>
    obtain rfl := h p y hp
    rw [releaseHandle_eq hp, slotUnref_handles] at hs
    by_cases hx : x = y
    · subst hx
      simp [World.setHandle] at hs
    · rw [World.setHandle_ne _ _ hx] at hs
      exact h x s hs

/-- Releasing the handle of a record unlinks it or leaves the links alone. -/
theorem HoldsOwn.release_links (h : HoldsOwn w) (p : Ptr) :
    (releaseHandle w p).links = w.links ∨ (releaseHandle w p).links = w.links.unlink p := by
  cases hp : (w.handles p).slot with
  | none => rw [releaseHandle_none hp]; exact .inl rfl
  | some y =>
    obtain rfl := h p y hp
    rw [releaseHandle_eq hp]
    by_cases hr : (w.slots y).refs ≤ 1
    · rw [slotUnref_last (w := w.setHandle y _) hr, slotFree_links]
      exact .inr rfl
    · rw [slotUnref_more (w := w.setHandle y _) (Nat.lt_of_not_le hr)]
      exact .inl rfl

/-- The body of the loop at `p`: the list behind `p` stays what it is. -/
theorem HoldsOwn.visit (h : HoldsOwn w) (tuple : Tuple) {l₁ : List Ptr} (hr : Repr w.links (l₁ ++ p :: l)) :
    (closeallVisit tuple w p).Ends (fun w' => HoldsOwn w' ∧ ∃ l₁, Repr w'.links (l₁ ++ l))
      fun w' => (w'.chans (w'.heap p).chan).closed = true := by
  cases hc : (w.chans (w.heap p).chan).closed with
  | true =>
    rw [closeallVisit_closed hc]
    exact hc
  | false =>
    have h₁ : HoldsOwn (w.logged (w.closeallLog tuple p)) := h
    rw [closeallVisit_open hc]
    refine ⟨h₁.release p, ?_⟩
    rcases h₁.release_links p with hl | hl
    · refine ⟨l₁ ++ [p], ?_⟩
      have hsame : ((releaseHandle (w.logged (w.closeallLog tuple p)) p).touch .closeall [p]).links =
          w.links := hl
      rw [hsame, List.append_assoc]
      exact hr
    · refine ⟨l₁, ?_⟩
      have hless : ((releaseHandle (w.logged (w.closeallLog tuple p)) p).touch .closeall [p]).links =
          w.links.unlink p := hl
      have hp : p ∉ l₁ := fun hx => (List.nodup_append.mp hr.nodup).2.2 p hx p (by simp) rfl
      have hun := hr.unlink (p := p) (by simp)
      rw [List.erase_append_right _ hp, List.erase_cons_head] at hun
      rw [hless]
      exact hun

/-! ### Operations in a row -/

inductive ListOp where
  | queue (p : Ptr)
  | dequeue (p : Ptr)

namespace ListOp

def run (w : World) : ListOp → World
  | .queue p => queuePending w p
  | .dequeue p => dequeuePending w p

/-- What the operation does to the sequence. -/
def seq (s : List Ptr) : ListOp → List Ptr
  | .queue p => p :: s
  | .dequeue p => s.erase p

/-- A record is queued when it is not in the sequence, and dequeued when it is. -/
def Fits (s : List Ptr) : ListOp → Prop
  | .queue p => p ∉ s
  | .dequeue p => p ∈ s

/-- Each operation fits the sequence that the ones before it leave. -/
def FitAll : List Ptr → List ListOp → Prop
  | _, [] => True
  | s, op :: ops => op.Fits s ∧ FitAll (op.seq s) ops

end ListOp

/-- The links of `x` are the same in both heaps. -/
def SameLinks (w w' : World) (x : Ptr) : Prop :=
  (w'.heap x).next = (w.heap x).next ∧ (w'.heap x).prev = (w.heap x).prev

theorem queue_refines (h : Repr w.links s) (hp : p ∉ s) :
    Repr (queuePending w p).links (p :: s) ∧ ∀ x, x ∉ p :: s → SameLinks w (queuePending w p) x := by
  have hq : w.conn.queue ≠ some p := by
    intro hq
    have hhead : s.head? = some p := h.head_eq.symm.trans hq
    exact hp (List.mem_of_mem_head? hhead)
  have heq := congrArg World.links (queuePending_eq w p hq)
  rw [World.withLinks_links] at heq
  rw [heq]
  refine ⟨h.push hp, fun x hx => ?_⟩
  have hxp : x ≠ p := fun he => hx (by simp [he])
  have hxh : w.links.head ≠ some x := by
    intro hh
    exact hx (List.mem_cons_of_mem _ (List.mem_of_mem_head? (h.head_eq.symm.trans hh)))
  obtain ⟨hn, hv⟩ := push_frame w.links hxp hxh
  rw [← heq] at hn hv
  exact ⟨hn, hv⟩

theorem dequeue_refines (h : Repr w.links s) (hp : p ∈ s) :
    Repr (dequeuePending w p).links (s.erase p) ∧ ∀ x, x ∉ s → SameLinks w (dequeuePending w p) x := by
  have heq := congrArg World.links (dequeuePending_eq w p)
  rw [World.withLinks_links] at heq
  rw [heq]
  refine ⟨h.unlink hp, fun x hx => ?_⟩
  obtain ⟨l₁, l₂, rfl⟩ := List.append_of_mem hp
  obtain ⟨hnext, _, hprev⟩ := h.fields_at
  obtain ⟨hn, hv⟩ := unlink_frame w.links (p := p) (x := x)
    (fun he => hx (by
      rw [hnext] at he
      exact List.mem_append_right _ (List.mem_cons_of_mem _ (List.mem_of_mem_head? he))))
    (fun he => hx (List.mem_append_left _ (hprev x he)))
  rw [← heq] at hn hv
  exact ⟨hn, hv⟩

/-- One operation refines its sequence operation. -/
theorem ListOp.refines (h : Repr w.links s) {op : ListOp} (hop : op.Fits s) : Repr (op.run w).links (op.seq s) := by
  cases op with
  | queue p => exact (queue_refines h hop).1
  | dequeue p => exact (dequeue_refines h hop).1

/-- And so do operations in a row. -/
theorem ListOp.refines_all {ops : List ListOp} (h : Repr w.links s) (hops : ListOp.FitAll s ops) :
    Repr (ops.foldl ListOp.run w).links (ops.foldl ListOp.seq s) := by
  induction ops generalizing w s with
  | nil => exact h
  | cons op ops ih => exact ih (ListOp.refines h hops.1) hops.2

theorem HoldsOwn.queuePending (h : HoldsOwn w) (p : Ptr) : HoldsOwn (queuePending w p) := by
  have hsame : (Async.queuePending w p).handles = w.handles := by
    unfold Async.queuePending
    dsimp only
    split <;> rfl
  intro x s hs
  rw [hsame] at hs
  exact h x s hs

theorem HoldsOwn.operate {ops : List ListOp} (h : HoldsOwn w) : HoldsOwn (ops.foldl ListOp.run w) := by
  induction ops generalizing w with
  | nil => exact h
  | cons op ops ih =>
    refine ih ?_
    cases op with
    | queue p => exact h.queuePending p
    | dequeue p =>
      intro x s hs
      rw [ListOp.run, dequeuePending_eq] at hs
      exact h x s hs

/-- The channel of the record is closed. -/
def ClosedAt (p : Ptr) (w : World) : Prop := (w.chans (w.heap p).chan).closed = true

/-- Its own body: a closed channel ends the traversal, nothing else does. -/
theorem closeall_visits (h : Repr w.links s) (ho : HoldsOwn w) (tuple : Tuple) {n : ℕ} (hn : s.length ≤ n) :
    Visits ClosedAt s (traverse (closeallVisit tuple) n w.conn.queue w) := by
  have hhead : w.conn.queue = s.head? := h.head_eq
  rw [hhead]
  refine traverse_visits (J := fun l w => HoldsOwn w ∧ ∃ l₁, Repr w.links (l₁ ++ l)) ?_ ?_ ⟨ho, [], h⟩ hn
  · rintro p l w ⟨_, l₁, hr⟩
    exact hr.fields_at.1
  · rintro p l w ⟨ho, l₁, hr⟩
    exact ho.visit tuple hr

/-- The three functions on a list that represents the sequence `s`: queueing a record that is not in
    it, dequeueing one that is, and, after any number of these, the traversal. -/
theorem refines_sequence (h : Repr w.links s) :
    (∀ p, p ∉ s → Repr (queuePending w p).links (p :: s) ∧
      ∀ x, x ∉ p :: s → SameLinks w (queuePending w p) x) ∧
    (∀ p, p ∈ s → Repr (dequeuePending w p).links (s.erase p) ∧
      ∀ x, x ∉ s → SameLinks w (dequeuePending w p) x) ∧
    ∀ ops, ListOp.FitAll s ops → ∀ n, (ops.foldl ListOp.seq s).length ≤ n →
      (∀ body : World → Ptr → World, (∀ w p x, x ≠ p → ((body w p).heap x).next = (w.heap x).next) →
        Visits (fun _ _ => False) (ops.foldl ListOp.seq s) (traverse (fun w p => .done (body w p)) n
          (ops.foldl ListOp.run w).conn.queue (ops.foldl ListOp.run w))) ∧
      (HoldsOwn w → ∀ tuple, Visits ClosedAt (ops.foldl ListOp.seq s) (traverse (closeallVisit tuple) n
        (ops.foldl ListOp.run w).conn.queue (ops.foldl ListOp.run w))) := by
  refine ⟨fun p hp => queue_refines h hp, fun p hp => dequeue_refines h hp, fun ops hops n hn => ?_⟩
  have hr := ListOp.refines_all h hops
  exact ⟨fun body hbody => traverse_body hr hbody hn, fun ho tuple => closeall_visits hr ho.operate tuple hn⟩

/-- Records 2, 1 and 0 are queued and 1 is dequeued again. -/
def exampleOps : List ListOp := [.queue 0, .queue 1, .queue 2, .dequeue 1]

theorem refines_sequence_three :
    Repr (queuePending initial 0).links [0] ∧
      Visits ClosedAt [2, 0] (traverse (closeallVisit (.close "D-Bus connection closed")) 2
        (exampleOps.foldl ListOp.run initial).conn.queue (exampleOps.foldl ListOp.run initial)) := by
  have hempty : Repr initial.links [] := Repr.nil_iff.mpr rfl
  have hfit : ListOp.FitAll [] exampleOps := by simp [exampleOps, ListOp.FitAll, ListOp.Fits, ListOp.seq]
  have hown : HoldsOwn initial := fun p s hs => absurd hs (by simp [initial])
  obtain ⟨hqueue, _, htraverse⟩ := refines_sequence hempty
  exact ⟨(hqueue 0 (by simp)).1, (htraverse exampleOps hfit 2 (by decide)).2 hown _⟩

end JanetSdbus.Async
