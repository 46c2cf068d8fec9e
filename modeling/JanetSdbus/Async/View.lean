import JanetSdbus.Async.Frame

/-! One record at a time.

    `w.view p` is everything the connection holds about record `p`: its part of the log, its
    channel, its slot and handle, and whether it is outstanding. A step has one subject; the views of
    all other records stay as they were, so an invariant about every record only has to be checked
    at the subject. `step_effect` says once what each step does to its subject. -/

namespace JanetSdbus.Async
open Schemes.LinkedList Schemes.Run

variable {w w' w₁ w₂ : World} {p x : Ptr} {es es₁ es₂ : List Event}

/-- The record an event is about. -/
def Event.record : Event → Option Ptr
  | .queued p | .answered p | .destroyed p | .cancelled p | .wrote _ p _ _ => some p
  | _ => none

/-- The part of a log that is about record `p`. -/
def history (p : Ptr) (l : List Event) : List Event := l.filter fun e => e.record = some p

structure View where
  hist : List Event
  chan : ChanId
  kind : Kind
  slot : SdBusSlot
  handle : Handle
  outstanding : Bool

def World.view (w : World) (p : Ptr) : View where
  hist := history p w.log
  chan := (w.heap p).chan
  kind := (w.heap p).kind
  slot := w.slots p
  handle := w.handles p
  outstanding := decide (p ∈ outstanding w.log)

/-- An event of the queue or the channel that concerns no record but `p`. -/
def Event.only (p : Ptr) : Event → Bool
  | .queued q | .answered q | .destroyed q | .cancelled q | .wrote _ q _ _ => q = p
  | .swept => false
  | _ => true

theorem only_of_quiet {e : Event} (h : e.quiet p = true) : e.only p = true := by
  cases e <;> simp_all [Event.quiet, Event.only]

theorem mem_history {e : Event} {l : List Event} (hr : e.record = some p) :
    e ∈ history p l ↔ e ∈ l := by
  simp [history, hr]

theorem history_append (p : Ptr) (es l : List Event) :
    history p (es ++ l) = history p es ++ history p l := List.filter_append ..

theorem history_other (hes : ∀ e ∈ es, e.only p = true) (hx : x ≠ p) : history x es = [] := by
  rw [history, List.filter_eq_nil_iff]
  intro e he hr
  have ho := hes e he
  cases e <;> simp_all [Event.record, Event.only]

theorem outstanding_only : ∀ {es l : List Event}, (∀ e ∈ es, e.only p = true) → x ≠ p →
    (x ∈ outstanding (es ++ l) ↔ x ∈ outstanding l)
  | [], _, _, _ => Iff.rfl
  | e :: es, l, hes, hx => by
    have hrec : x ∈ outstanding (es ++ l) ↔ x ∈ outstanding l :=
      outstanding_only (fun e he => hes e (List.mem_cons_of_mem _ he)) hx
    have he := hes e (by simp)
    cases e <;> simp_all [outstanding, Event.only, List.mem_erase_of_ne]

/-- A step about `p` leaves the view of every other record as it was. -/
theorem Frame.view (f : Frame w w' p es) (hes : ∀ e ∈ es, e.only p = true) (hx : x ≠ p) :
    w'.view x = w.view x := by
  have hh : history x w'.log = history x w.log := by
    rw [f.log, history_append, history_other hes hx, List.nil_append]
  have ho : (x ∈ outstanding w'.log) = (x ∈ outstanding w.log) := by
    rw [f.log]; exact propext (outstanding_only hes hx)
  simp only [World.view, hh, f.chan, f.kind, f.slots x hx, f.handles x hx, ho]

/-- Accesses to freed or finalized memory show in the log only. -/
theorem view_logged (hes : ∀ e ∈ es, e.plain = true ∧ e.record = none) (x : Ptr) :
    (w.logged es).view x = w.view x := by
  have hnil : history x es = [] := by
    rw [history, List.filter_eq_nil_iff]
    intro e he
    simp [(hes e he).2]
  have hh : history x (w.logged es).log = history x w.log := by
    rw [World.logged, history_append, hnil]; rfl
  have ho : outstanding (w.logged es).log = outstanding w.log :=
    outstanding_plain fun e he => (hes e he).1
  simp only [World.view, hh, ho]
  rfl

theorem view_setHandle {h : Handle} (hx : x ≠ p) : (w.setHandle p h).view x = w.view x := by
  simp only [World.view, World.setHandle_ne w h hx]
  rfl

theorem view_setHandle_self (h : Handle) :
    (w.setHandle p h).view p = { w.view p with handle := h } := by
  simp only [World.view, World.setHandle_self]
  rfl

/-- Sweeping only takes every record out. -/
theorem view_swept (w : World) (x : Ptr) :
    ((w.setQueue none).note .swept).view x = { w.view x with outstanding := false } := by
  simp [World.view, World.note, World.setQueue, history, Event.record, outstanding]

/-! ### The subject of a quiet operation or of a callback -/

/-- What an operation did to its subject's own view. `wrote` is what it gave to the channel; around
    that it can only have answered or destroyed the record. -/
structure View.Given (v v' : View) (wrote : List Event) : Prop where
  hist : ∃ es₁ es₂, v'.hist = es₂ ++ (wrote ++ (es₁ ++ v.hist)) ∧
    ∀ e ∈ es₁ ++ es₂, (∃ q, e = .answered q) ∨ ∃ q, e = .destroyed q
  chan : v'.chan = v.chan
  kind : v'.kind = v.kind
  cookie : v'.slot.cookie = v.slot.cookie
  connected : v'.slot.connected = true → v.slot.connected = true
  awaiting : v'.slot.awaiting = true → v.slot.awaiting = true
  finalized : v'.handle.finalized = v.handle.finalized
  ref : v'.handle.ref = v.handle.ref
  outstanding : v'.outstanding = true → v.outstanding = true

/-- An operation on a record only adds to its history. -/
theorem View.Given.mono {v v' : View} {wrote : List Event} (h : v.Given v' wrote) :
    ∀ e ∈ v.hist, e ∈ v'.hist := by
  obtain ⟨es₁, es₂, hh, _⟩ := h.hist
  intro e he
  rw [hh]; simp [he]

/-- What it adds is what it wrote, and that the record was answered or destroyed. -/
theorem View.Given.mem {v v' : View} {wrote : List Event} (h : v.Given v' wrote) {e : Event}
    (he : e ∈ v'.hist) : e ∈ v.hist ∨ e ∈ wrote ∨ (∃ q, e = .answered q) ∨ ∃ q, e = .destroyed q := by
  obtain ⟨es₁, es₂, hh, hes⟩ := h.hist
  rw [hh] at he
  rcases List.mem_append.mp he with he | he
  · exact Or.inr (Or.inr (hes e (List.mem_append_right _ he)))
  rcases List.mem_append.mp he with he | he
  · exact Or.inr (Or.inl he)
  rcases List.mem_append.mp he with he | he
  · exact Or.inr (Or.inr (hes e (List.mem_append_left _ he)))
  · exact Or.inl he

theorem View.Given.wrote_mem {v v' : View} {wrote : List Event} (h : v.Given v' wrote) :
    ∀ e ∈ wrote, e ∈ v'.hist := by
  obtain ⟨es₁, es₂, hh, _⟩ := h.hist
  intro e he
  rw [hh]; simp [he]

theorem history_quiet (hes : ∀ e ∈ es, Event.quiet p e = true) :
    ∀ e ∈ history x es, (∃ q, e = .answered q) ∨ ∃ q, e = .destroyed q := by
  intro e he
  obtain ⟨hmem, hr⟩ := List.mem_filter.mp he
  have hq := hes e hmem
  cases e <;> simp_all [Event.quiet, Event.record]

theorem Quiet.view (h : Quiet w w' p) : (w.view p).Given (w'.view p) [] := by
  obtain ⟨es, f, hes⟩ := h
  refine ⟨⟨history p es, [], ?_, ?_⟩, f.chan p, f.kind p, f.cookie, f.connected, f.awaiting,
    f.finalized, f.ref, ?_⟩
  · simp only [World.view, f.log, history_append, List.nil_append]
  · rw [List.append_nil]; exact history_quiet hes
  · intro ho
    simp only [World.view, decide_eq_true_eq, f.log] at ho ⊢
    exact (outstanding_quiet hes).2 ho

theorem Quiet.view_other (h : Quiet w w' p) (hx : x ≠ p) : w'.view x = w.view x := by
  obtain ⟨es, f, hes⟩ := h
  exact f.view (fun e he => only_of_quiet (hes e he)) hx

/-- The event of the tuple, if the channel is open. -/
def World.wroteIf (w : World) (src : Source) (p : Ptr) (t : Tuple) : List Event :=
  if (w.chans (w.heap p).chan).closed then [] else [.wrote src p (w.heap p).chan t]

theorem wroteIf_queued (w : World) (src : Source) (p q : Ptr) (t : Tuple) :
    .queued q ∉ w.wroteIf src p t := by
  rw [World.wroteIf]
  split <;> simp

theorem chanFault_only (w : World) (p q : Ptr) : ∀ e ∈ w.chanFault q, e.only p = true := by
  intro e he
  rw [World.chanFault] at he
  split at he
  · obtain rfl := List.mem_singleton.mp he; rfl
  · simp at he

theorem giveLog_only (w : World) (src : Source) (p : Ptr) (t : Tuple) :
    ∀ e ∈ w.giveLog src p t, e.only p = true := by
  intro e he
  rw [World.giveLog] at he
  split at he
  · exact chanFault_only w p p e he
  · rcases List.mem_cons.mp he with rfl | he
    · simp [Event.only]
    · exact chanFault_only w p p e he

theorem history_chanFault (w : World) (p x : Ptr) : history x (w.chanFault p) = [] := by
  rw [World.chanFault]
  split <;> simp [history, Event.record]

theorem history_giveLog (w : World) (src : Source) (p : Ptr) (t : Tuple) :
    history p (w.giveLog src p t) = w.wroteIf src p t := by
  rw [World.giveLog, World.wroteIf]
  split
  · exact history_chanFault w p p
  · have hcons : history p (.wrote src p (w.heap p).chan t :: w.chanFault p) =
        .wrote src p (w.heap p).chan t :: history p (w.chanFault p) :=
      List.filter_cons_of_pos (by simp [Event.record])
    rw [hcons, history_chanFault]

theorem outstanding_giveLog (w : World) (src : Source) (p : Ptr) (t : Tuple) (l : List Event) :
    outstanding (w.giveLog src p t ++ l) = outstanding l := by
  refine outstanding_plain fun e he => ?_
  rw [World.giveLog] at he
  split at he
  · exact chanFault_plain w p e he
  · rcases List.mem_cons.mp he with rfl | he
    · rfl
    · exact chanFault_plain w p e he

theorem Gave.view {src : Source} {t : Tuple} (h : Gave w w' src p t) :
    (w.view p).Given (w'.view p) (w.wroteIf src p t) := by
  obtain ⟨es₁, es₂, f, q₁, q₂⟩ := h
  refine ⟨⟨history p es₁, history p es₂, ?_, ?_⟩, f.chan p, f.kind p, f.cookie, f.connected,
    f.awaiting, f.finalized, f.ref, ?_⟩
  · simp only [World.view, f.log, history_append, history_giveLog, List.append_assoc]
  · intro e he
    rcases List.mem_append.mp he with he | he
    · exact history_quiet q₁ e he
    · exact history_quiet q₂ e he
  · intro ho
    simp only [World.view, decide_eq_true_eq, f.log, List.append_assoc] at ho ⊢
    have h₁ := (outstanding_quiet q₂).2 ho
    rw [outstanding_giveLog] at h₁
    exact (outstanding_quiet q₁).2 h₁

theorem Gave.only {src : Source} {t : Tuple} (q₁ : ∀ e ∈ es₁, e.quiet p = true)
    (q₂ : ∀ e ∈ es₂, e.quiet p = true) :
    ∀ e ∈ es₂ ++ (w.giveLog src p t ++ es₁), e.only p = true := by
  intro e he
  rcases List.mem_append.mp he with he | he
  · exact only_of_quiet (q₂ e he)
  rcases List.mem_append.mp he with he | he
  · exact giveLog_only w src p t e he
  · exact only_of_quiet (q₁ e he)

theorem Gave.view_other {src : Source} {t : Tuple} (h : Gave w w' src p t) (hx : x ≠ p) :
    w'.view x = w.view x := by
  obtain ⟨es₁, es₂, f, q₁, q₂⟩ := h
  exact f.view (Gave.only q₁ q₂) hx

/-! ### A new record -/

/-- The view of the record `call-async` or `match-async` leaves when sd-bus accepted it. -/
def startView (w : World) (c : ChanId) (kind : Kind) : View where
  hist := .queued w.nextPtr :: history w.nextPtr w.log
  chan := c
  kind := kind
  slot := { refs := 2, floating := true, connected := true, awaiting := true,
            cookie := w.serial + 1 }
  handle := { slot := some w.nextPtr, ref := .callee, finalized := false }
  outstanding := true

/-- ... and when it refused. -/
def rejectView (w : World) (c : ChanId) (kind : Kind) : View :=
  { w.view w.nextPtr with
    chan := c, kind := kind, handle := { slot := none, ref := .callee, finalized := false } }

theorem history_queued (p : Ptr) (l : List Event) :
    history p (.queued p :: l) = .queued p :: history p l :=
  List.filter_cons_of_pos (by simp [Event.record])

structure Started (w w' : World) (c : ChanId) (kind : Kind) (rv : ℤ) : Prop where
  others : ∀ x, x ≠ w.nextPtr → w'.view x = w.view x
  subject : (¬ rv < 0 ∧ w'.view w.nextPtr = startView w c kind ∧ w'.serial = w.serial + 1) ∨
    (rv < 0 ∧ w'.view w.nextPtr = rejectView w c kind ∧ w'.serial = w.serial)
  nextPtr : w'.nextPtr = w.nextPtr + 1
  chans : w'.chans = w.chans
  bus : w'.conn.bus = w.conn.bus
  stream : w'.conn.bus_stream = w.conn.bus_stream
  log : ∃ es, w'.log = es ++ w.log ∧ ∀ e ∈ es, e = .queued w.nextPtr ∨ ∃ p, e = .freedRecord .queue p

theorem queuePending_frame (w : World) (p : Ptr) (hp : w.conn.queue ≠ some p) :
    Frame w (queuePending w p) p (w.freedOf .queue w.conn.queue.toList) := by
  rw [queuePending_eq w p hp]
  exact ⟨rfl, fun _ => rfl, fun _ => rfl, fun _ _ => rfl, rfl, id, id, fun _ _ => rfl, rfl, rfl, rfl,
    rfl, rfl, rfl, rfl⟩

theorem startAsync_started (h : Inv w) (c : ChanId) (kind : Kind) (rv : ℤ) :
    (startAsync w c kind rv).All fun w' => Started w w' c kind rv := by
  by_cases hrv : rv < 0
  · simp only [startAsync, hrv, if_true]
    refine ⟨?_, Or.inr ⟨hrv, ?_, rfl⟩, rfl, rfl, rfl, rfl, [], rfl, by simp⟩
    · intro x hx; simp [World.view, initCallbackState, hx]; rfl
    · simp [World.view, rejectView, initCallbackState]; rfl
  · have hq : (startState w c kind).conn.queue ≠ some w.nextPtr := by
      rw [startState_eq]
      intro hq
      have hh : (outstanding w.log).head? = some w.nextPtr := by rw [← h.repr.head_eq]; exact hq
      exact h.nextPtr_notMem (List.mem_of_mem_head? hh)
    have f := queuePending_frame (startState w c kind) w.nextPtr hq
    have hes := freedOf_quiet (startState w c kind) .queue (startState w c kind).conn.queue.toList
      w.nextPtr
    have hlog : (startState w c kind).log = w.log := by rw [startState_eq]
    rw [startAsync_accepted hrv]
    refine ⟨?_, Or.inl ⟨hrv, ?_, ?_⟩, ?_, ?_, ?_, ?_,
      .queued w.nextPtr :: (startState w c kind).freedOf .queue (startState w c kind).conn.queue.toList,
      ?_, ?_⟩
    · intro x hx
      have hv := f.view (fun e he => only_of_quiet (hes e he)) hx
      have hn : ((queuePending (startState w c kind) w.nextPtr).note (.queued w.nextPtr)).view x =
          (queuePending (startState w c kind) w.nextPtr).view x := by
        simp [World.view, World.note, history, Event.record, outstanding, hx, Ne.symm hx]
      rw [hn, hv, startState_eq]
      simp [World.view, hx]
    · have hnil : history w.nextPtr
          ((startState w c kind).freedOf .queue (startState w c kind).conn.queue.toList) = [] := by
        rw [history, List.filter_eq_nil_iff]
        intro e he
        obtain ⟨q, _, _, rfl⟩ := mem_freedOf.mp he
        simp [Event.record]
      have hhist : history w.nextPtr (queuePending (startState w c kind) w.nextPtr).log =
          history w.nextPtr w.log := by rw [f.log, history_append, hnil, hlog]; rfl
      have hslots : (queuePending (startState w c kind) w.nextPtr).slots = (startState w c kind).slots := by
        rw [queuePending_eq _ _ hq]; rfl
      have hhandles : (queuePending (startState w c kind) w.nextPtr).handles =
          (startState w c kind).handles := by rw [queuePending_eq _ _ hq]; rfl
      have hch := f.chan w.nextPtr
      have hki := f.kind w.nextPtr
      simp only [World.view, startView, World.note, outstanding, hslots, hhandles, hch, hki,
        history_queued, hhist]
      simp [startState_eq]
    · show (queuePending (startState w c kind) w.nextPtr).serial = _
      rw [f.serial, startState_eq]
    · show (queuePending (startState w c kind) w.nextPtr).nextPtr = _
      rw [f.nextPtr, startState_eq]
    · show (queuePending (startState w c kind) w.nextPtr).chans = _
      rw [f.chans, startState_eq]
    · show (queuePending (startState w c kind) w.nextPtr).conn.bus = _
      rw [f.bus, startState_eq]
    · show (queuePending (startState w c kind) w.nextPtr).conn.bus_stream = _
      rw [f.stream, startState_eq]
    · show .queued w.nextPtr :: (queuePending (startState w c kind) w.nextPtr).log = _
      rw [f.log, hlog]; rfl
    · intro e he
      rcases List.mem_cons.mp he with rfl | he
      · exact Or.inl rfl
      · obtain ⟨q, _, _, rfl⟩ := mem_freedOf.mp he
        exact Or.inr ⟨q, rfl⟩

end JanetSdbus.Async
