import JanetSdbus.Async.Aging
import JanetSdbus.Async.Close

/-! `call-async` and `match-async`, all or nothing.

    Both register a slot and queue a record, and take both back if sd-bus refuses. `call-async` then
    sets the timer, and if the deadline has passed it runs `process_bus` inside: messages are
    dispatched, exported methods run Janet code, and all of that may raise when the record has long
    been published. `atomic_iff` says that every such raise breaks the promise, and nothing else. -/

namespace JanetSdbus.Atomic
open Async Schemes.LinkedList Schemes.Run

/-! ### The call -/

/-- What may happen below the `sd_bus_process` of the call that makes record `p`: callbacks, which may
    raise, and operations of the Janet code that exported methods run, whose errors are caught there.
    The handle of `p` has not been returned yet, events are not delivered, and the bus is in use. -/
def dispatch (p : Ptr) (w : World) : Step → Option Outcome
  | .reply q m =>
    if w.callable q .Call ∧ (w.slots q).awaiting ∧ w.isReply q m then some (processReply w q m) else none
  | .matched q m => if w.callable q .Match then some (processMatch w q m) else none
  | .installed q m =>
    if w.callable q .Match ∧ (w.slots q).awaiting ∧ w.isReply q m then some (processInstall w q m) else none
  | .returned q => if q = p then none else (step w (.returned q)).map .done
  | .hup | .err | .busDrop _ => none
  | s => (step w s).map .done

/-- A raise ends the processing. -/
def processing (p : Ptr) : List Step → World → Option Outcome
  | [], w => some (.done w)
  | s :: ss, w => (dispatch p w s).bind fun o =>
    match o with
    | .done w' => processing p ss w'
    | o => if ss = [] then some o else none

/-- The end of `settimeout`: `failure` is the message if the timeout query, `sd_bus_process`, the events
    query or `timerfd_settime` fails. On a connection that is closed by now the next call into sd-bus
    does. -/
def endTimeout (failure : Option String) (w : World) : Outcome :=
  match failure with
  | some msg => .raised w msg
  | none => if w.conn.bus then .done w else .raised w "failed to call sd_bus_process"

/-- The whole of `cfun_call_async`: `rv` is what sd-bus returns for the call, and `ss` is what
    `settimeout` processes inside, if the deadline has passed. -/
def cfunCallAsync (w : World) (c : ChanId) (rv : ℤ) (ss : List Step) (failure : Option String) :
    Option Outcome :=
  if rv < 0 ∨ w.conn.bus then
    match Async.cfunCallAsync w c rv with
    | .done w₁ => (processing w.nextPtr ss w₁).map fun o => o.bind (endTimeout failure)
    | o => if ss = [] then some o else none
  else none

/-! ### All or nothing -/

/-- Nothing: the queue and the registered slots are as before, and nothing is ever written for the
    record the call has made. -/
structure Unchanged (w w' : World) : Prop where
  queued : w'.queued = w.queued
  connected : ∀ x, (w'.slots x).connected = (w.slots x).connected
  silent : ∀ steps w'', Meets step StepOk w' steps → exec step w' steps = some w'' →
    ∀ src c t, .wrote src w.nextPtr c t ∉ w''.log

/-- All: one new record, queued once and, unless it has been answered, still queued and registered.
    The other slots that are new were made by operations inside the call. -/
structure Registered (w : World) (c : ChanId) (kind : Kind) (ss : List Step) (w' : World) : Prop where
  made : w.nextPtr < w'.nextPtr
  chan : (w'.heap w.nextPtr).chan = c
  kind : (w'.heap w.nextPtr).kind = kind
  cookie : (w'.slots w.nextPtr).cookie = w.serial + 1
  once : w'.log.count (.queued w.nextPtr) = 1
  pending : .answered w.nextPtr ∉ w'.log →
    w'.queued.count w.nextPtr = 1 ∧ (w'.slots w.nextPtr).connected = true
  only : (∀ s ∈ ss, s.makes = none) → ∀ x, (w'.slots x).connected = true →
    (w.slots x).connected = false → x = w.nextPtr

def AllOrNothing (w : World) (c : ChanId) (kind : Kind) (ss : List Step) : Outcome → Prop
  | .done w' => Registered w c kind ss w'
  | .raised w' _ => Unchanged w w'
  | .diverged => False

/-- The state after a step inside, whichever way it ended. -/
def turn (p : Ptr) (w : World) (s : Step) : Option World := (dispatch p w s).bind Outcome.world?

/-- The step inside does not make the call raise: a callback finds its channel open, and the connection
    is not closed. -/
def Calm (w : World) : Step → Prop
  | .reply q _ => w.opened q
  | .matched q m => m.type = .other ∨ w.opened q
  | .installed q m => (∀ error, m.type ≠ .methodError error) ∨ w.opened q
  | .closeBus => ¬ ∃ w', cfunCloseBus w = .done w'
  | _ => True

/-! ### One step inside -/

variable {w w' w₁ : World} {p : Ptr} {s : Step} {o : Outcome} {c : ChanId}

theorem map_done {x : Option World} (hd : x.map .done = some o) (hw : o.world? = some w') : x = some w' := by
  obtain ⟨w₁, rfl, rfl⟩ := Option.map_eq_some_iff.mp hd
  exact hw

/-- A step inside is a step of the connection. -/
theorem dispatch_step (hd : dispatch p w s = some o) (hw : o.world? = some w') : step w s = some w' := by
  cases s with
  | reply q m =>
    simp only [dispatch, Option.ite_none_right_eq_some, Option.some.injEq] at hd
    rw [step, if_pos hd.1, hd.2, hw]
  | matched q m =>
    simp only [dispatch, Option.ite_none_right_eq_some, Option.some.injEq] at hd
    rw [step, if_pos hd.1, hd.2, hw]
  | installed q m =>
    simp only [dispatch, Option.ite_none_right_eq_some, Option.some.injEq] at hd
    rw [step, if_pos hd.1, hd.2, hw]
  | returned q =>
    simp only [dispatch, Option.ite_none_left_eq_some] at hd
    exact map_done hd.2 hw
  | hup => simp [dispatch] at hd
  | err => simp [dispatch] at hd
  | busDrop q => simp [dispatch] at hd
  | _ => exact map_done hd hw

theorem turn_done (hd : dispatch p w s = some (.done w')) : turn p w s = some w' := by
  rw [turn, hd]
  rfl

/-- The slot is registered and floats. -/
def Live (p : Ptr) (w : World) : Prop := (w.slots p).connected = true ∧ (w.slots p).floating = true

/-- The handler has answered the call. -/
def Told (p : Ptr) (w : World) : Prop := (∃ c t, .wrote .handler p c t ∈ w.log) ∧ .answered p ∈ w.log

/-- The new record while the call is under way. It is queued and registered, until it is answered; a
    `close-bus` inside takes it out of the queue, but not off the bus. -/
structure Pending (p : Ptr) (w : World) : Prop where
  sound : Sound w
  made : p < w.nextPtr
  kind : (w.heap p).kind = .Call
  ref : (w.handles p).ref ≠ .user
  status : (Live p w ∧ (w.conn.bus = true → p ∈ outstanding w.log)) ∨ Told p w

/-- Letting go of the handle leaves a floating slot on the bus. -/
theorem releaseHandle_live (h : Inv w) (hl : Live p w) :
    Live p (releaseHandle w p) ∧ outstanding (releaseHandle w p).log = outstanding w.log := by
  cases hs : (w.handles p).slot with
  | none => rw [releaseHandle_none hs]; exact ⟨hl, rfl⟩
  | some q =>
    obtain rfl := h.own p q hs
    have hr := h.refs q
    have hhandle : w.handleRef q = 1 := by simp [World.handleRef, hs]
    have hbus : w.busRef q = 1 := by rw [World.busRef, hl.1, hl.2]; rfl
    have hmore : 1 < ((w.setHandle q { w.handles q with slot := none }).slots q).refs := by
      show 1 < (w.slots q).refs
      omega
    rw [releaseHandle_eq hs, slotUnref_more hmore]
    refine ⟨?_, rfl⟩
    rw [Live, World.setSlot_self]
    exact hl

/-- A callback that raises leaves the slot on the bus. -/
theorem processReply_raised {m : Message} {e : String} (hk : (w.heap p).kind = .Call)
    (hm : m.type = .methodReturn ∨ ∃ e, m.type = .methodError e) (hr : processReply w p m = .raised w' e) :
    (w'.slots p).connected = (w.slots p).connected := by
  have hall := messageHandler_call (P := fun w₁ => (w₁.slots p).connected = (w.slots p).connected)
    (w := slotEnter w p) (p := p) (m := m) hk hm fun es es' _ _ => by
      show ((answer ((slotEnter w p).logged es) p).slots p).connected = _
      rw [answer_eq]
      show ((slotEnter w p).slots p).connected = _
      rw [slotEnter_slot]
  rw [processReply] at hr
  cases hc : messageHandler (slotEnter w p) p m with
  | done w₁ => rw [hc] at hr; exact absurd hr (by simp [Outcome.bind, Outcome.dispatched])
  | raised w₁ e₁ =>
    rw [hc] at hr hall
    simp only [Outcome.bind, Outcome.dispatched, Outcome.raised.injEq] at hr
    obtain ⟨rfl, _⟩ := hr
    exact hall
  | diverged => rw [hc] at hr; exact absurd hr (by simp [Outcome.bind, Outcome.dispatched])

/-- A reply that went through has been written and noted. -/
theorem processReply_told {m : Message} (hk : (w.heap p).kind = .Call)
    (hm : m.type = .methodReturn ∨ ∃ e, m.type = .methodError e) (hne : m.type ≠ .other)
    (hr : processReply w p m = .done w') : Told p w' := by
  have hgave := processReply_gave (w := w) (p := p) hne
  rw [hr] at hgave
  obtain ⟨hopen, hg⟩ := hgave
  constructor
  · have hmem : .wrote .handler p (w.heap p).chan (handlerTuple (w.heap p).kind m) ∈ history p w'.log := by
      refine hg.view.wrote_mem _ ?_
      rw [World.wroteIf, if_neg (by simp [hopen])]
      exact List.mem_singleton.mpr rfl
    exact ⟨_, _, (mem_history rfl).mp hmem⟩
  · have hall := messageHandler_call (P := fun w₁ => .answered p ∈ w₁.log) (w := slotEnter w p) (p := p)
      (m := m) hk hm fun es es' _ _ => by
        show Event.answered p ∈ es' ++ (answer ((slotEnter w p).logged es) p).log
        rw [answer_eq]
        exact List.mem_append_right _ List.mem_cons_self
    rw [processReply, Outcome.dispatched_done] at hr
    cases hc : messageHandler (slotEnter w p) p m with
    | done w₁ =>
      rw [hc] at hr hall
      simp only [Outcome.bind, Outcome.done.injEq] at hr
      subst hr
      obtain ⟨es, f, _⟩ := (Quiet.detach w₁ p).trans (Quiet.unref (slotDetach w₁ p) p)
      rw [f.log]
      exact List.mem_append_right _ hall
    | raised w₁ e₁ => rw [hc] at hr; exact absurd hr (by simp [Outcome.bind])
    | diverged => rw [hc] at hr; exact absurd hr (by simp [Outcome.bind])

/-! ### `close-bus` inside -/

/-- What the loop of `close-bus` keeps of the new record. -/
structure Near (p : Ptr) (w w' : World) : Prop where
  ref : (w'.handles p).ref = (w.handles p).ref
  bus : w'.conn.bus = w.conn.bus
  live : Live p w → Live p w'
  outstanding : Live p w → p ∈ outstanding w.log → p ∈ outstanding w'.log

theorem Near.refl (p : Ptr) (w : World) : Near p w w := ⟨rfl, rfl, id, fun _ => id⟩

theorem Near.of_view {w₀ : World} (h : Near p w₀ w) (hv : w'.view p = w.view p)
    (hbus : w'.conn.bus = w.conn.bus) : Near p w₀ w' where
  ref := (congrArg (fun v => v.handle.ref) hv).trans h.ref
  bus := hbus.trans h.bus
  live hl := by
    have hslot : w'.slots p = w.slots p := congrArg View.slot hv
    rw [Live, hslot]
    exact h.live hl
  outstanding hl ho := by
    have hout : (w'.view p).outstanding = (w.view p).outstanding := congrArg View.outstanding hv
    exact of_decide_eq_true (hout.trans (decide_eq_true (h.outstanding hl ho)))

theorem closeallVisit_near (w₀ : World) (tuple : Tuple) (q : Ptr) (l : List Ptr) (w : World) (h : Inv w)
    (_ : ∃ l₁, outstanding w.log = l₁ ++ q :: l) (hn : Near p w₀ w) :
    (closeallVisit tuple w q).Ends (Near p w₀) (Near p w₀) := by
  have hv := closeallVisit_ends h tuple q
  cases hc : closeallVisit tuple w q with
  | diverged => rw [hc] at hv; exact hv
  | raised w' e =>
    rw [hc] at hv
    obtain ⟨_, rfl⟩ := hv
    exact hn.of_view (view_refused w q p) rfl
  | done w' =>
    rw [hc] at hv
    have hbus : w'.conn.bus = w.conn.bus := by
      obtain ⟨es, f, _⟩ := hv.frame
      exact f.bus
    by_cases hq : p = q
    · subst hq
      rw [closeallVisit_open hv.opened] at hc
      obtain rfl := Outcome.done.inj hc
      -- the handle lets go
      have hi := h.logged (closeallLog_plain w tuple p)
      refine ⟨hv.view.ref.trans hn.ref, hbus.trans hn.bus, fun hl => (releaseHandle_live hi (hn.live hl)).1,
        fun hl ho => ?_⟩
      have hlog : outstanding (w.logged (w.closeallLog tuple p)).log = outstanding w.log :=
        outstanding_plain (closeallLog_plain w tuple p)
      obtain ⟨es, he, hes⟩ := touch_eq (w := releaseHandle (w.logged (w.closeallLog tuple p)) p)
        closeall_ne_dequeue [p]
      rw [he, World.logged, outstanding_plain hes, (releaseHandle_live hi (hn.live hl)).2, hlog]
      exact hn.outstanding hl ho
    · exact hn.of_view (hv.view_other hq) hbus

/-- `close-bus` leaves the slot on the bus; if it raises the record is still queued. -/
theorem cfunCloseBus_near (h : Inv w) (p : Ptr) :
    (cfunCloseBus w).Ends (fun w' => (w'.handles p).ref = (w.handles p).ref ∧ w'.conn.bus = false ∧
      (Live p w → Live p w')) (Near p w) := by
  have hb := cfunCloseBus_swept (J := fun _ _ => Near p w) (R := Near p w)
    (fun tuple q l w₁ hi hl hn => closeallVisit_near w tuple q l w₁ hi hl hn) h (Near.refl p w)
  cases hc : cfunCloseBus w with
  | diverged => rw [hc] at hb; exact hb
  | raised w' e => rw [hc] at hb; exact hb
  | done w' =>
    rw [hc] at hb
    obtain ⟨hbus, _, _, hb⟩ := hb
    split at hb
    · obtain ⟨w₁, hn, hs⟩ := hb
      have hslot : w'.slots p = w₁.slots p := congrArg View.slot (hs.views p)
      have hhandle : w'.handles p = w₁.handles p := congrArg View.handle (hs.views p)
      refine ⟨by rw [hhandle]; exact hn.ref, hbus, fun hl => ?_⟩
      rw [Live, hslot]
      exact hn.live hl
    · have hslot : w'.slots = w.slots := by rw [hb.1]
      have hhandle : w'.handles = w.handles := by rw [hb.1]
      refine ⟨by rw [hhandle], hbus, fun hl => ?_⟩
      rw [Live, hslot]
      exact hl

/-! ### The record under way -/

theorem Told.step (h : Told p w) (hs : Sound w) (hlt : p < w.nextPtr) (ht : step w s = some w') : Told p w' := by
  obtain ⟨⟨c, t, hwrote⟩, hanswered⟩ := h
  have hmono := ((step_aged hs ht).1 p hlt).mono
  exact ⟨⟨c, t, (mem_history rfl).mp (hmono _ ((mem_history rfl).mpr hwrote))⟩,
    (mem_history rfl).mp (hmono _ ((mem_history rfl).mpr hanswered))⟩

/-- A `close-bus` inside, whose error is caught. -/
theorem Pending.closeBus (h : Pending p w) (hs : (cfunCloseBus w).world? = some w') : Pending p w' := by
  have hstep : step w .closeBus = some w' := hs
  obtain ⟨haged, hle⟩ := step_aged h.sound hstep
  have hnear := cfunCloseBus_near h.sound.inv p
  have hkind : (w'.heap p).kind = .Call := (haged p h.made).kind.trans h.kind
  have hsound := h.sound.step (s := .closeBus) trivial hstep
  have hmade := Nat.lt_of_lt_of_le h.made hle
  cases hc : cfunCloseBus w with
  | diverged => rw [hc] at hs; exact absurd hs (by simp [Outcome.world?])
  | done w₁ =>
    rw [hc] at hs hnear
    obtain rfl := Option.some.inj hs
    obtain ⟨href, hbus, hlive⟩ := hnear
    refine ⟨hsound, hmade, hkind, by rw [href]; exact h.ref, ?_⟩
    rcases h.status with ⟨hl, _⟩ | ht
    · exact .inl ⟨hlive hl, fun hb => absurd (hb.symm.trans hbus) (by decide)⟩
    · exact .inr (ht.step h.sound h.made hstep)
  | raised w₁ e =>
    rw [hc] at hs hnear
    obtain rfl := Option.some.inj hs
    refine ⟨hsound, hmade, hkind, by rw [hnear.ref]; exact h.ref, ?_⟩
    rcases h.status with ⟨hl, ho⟩ | ht
    · exact .inl ⟨hnear.live hl, fun hb => hnear.outstanding hl (ho (hnear.bus.symm.trans hb))⟩
    · exact .inr (ht.step h.sound h.made hstep)

/-- A step inside that came back leaves the record under way. -/
theorem Pending.done (h : Pending p w) (hok : StepOk w s) (hd : dispatch p w s = some (.done w')) :
    Pending p w' := by
  have hs := dispatch_step hd rfl
  have he := step_effect h.sound.inv hs
  obtain ⟨haged, hle⟩ := step_aged h.sound hs
  have hkind : (w'.heap p).kind = .Call := (haged p h.made).kind.trans h.kind
  have hsound := h.sound.step hok hs
  have hmade := Nat.lt_of_lt_of_le h.made hle
  cases hsw : s.sweeps with
  | true =>
    cases s with
    | closeBus => exact h.closeBus hs
    | hup => simp [dispatch] at hd
    | err => simp [dispatch] at hd
    | _ => simp [Step.sweeps] at hsw
  | false =>
    obtain ⟨hbus, _⟩ := he.conn hsw
    by_cases hsub : s.subject w = some p
    swap
    · -- another record's step
      have hv := he.others hsw hsub
      have hn : Near p w w' := (Near.refl p w).of_view hv hbus
      refine ⟨hsound, hmade, hkind, by rw [hn.ref]; exact h.ref, ?_⟩
      rcases h.status with ⟨hl, ho⟩ | ht
      · exact .inl ⟨hn.live hl, fun hb => hn.outstanding hl (ho (hbus.symm.trans hb))⟩
      · exact .inr (ht.step h.sound h.made hs)
    cases he with
    | callAsync => exact absurd (Option.some.inj hsub) (Nat.ne_of_gt h.made)
    | matchAsync => exact absurd (Option.some.inj hsub) (Nat.ne_of_gt h.made)
    | returned =>
      obtain rfl := Option.some.inj hsub
      simp [dispatch] at hd
    | @reply q m _ hc hm hends hg _ =>
      obtain rfl : q = p := Option.some.inj hsub
      simp only [dispatch, Option.ite_none_right_eq_some, Option.some.injEq] at hd
      have href : (w'.handles q).ref = (w.handles q).ref := hg.view.ref
      exact ⟨hsound, hmade, hkind, by rw [href]; exact h.ref,
        .inr (processReply_told h.kind hm.type hm.2.2.2 hd.2)⟩
    | matched hc _ _ =>
      obtain rfl := Option.some.inj hsub
      exact absurd ((World.callable_spec hc).2.2.1.symm.trans h.kind) (by decide)
    | installed hc _ _ =>
      obtain rfl := Option.some.inj hsub
      exact absurd ((World.callable_spec hc).2.2.1.symm.trans h.kind) (by decide)
    | cancel _ _ hr _ _ =>
      obtain rfl := Option.some.inj hsub
      exact absurd hr h.ref
    | @dropHandle q _ =>
      obtain rfl : q = p := Option.some.inj hsub
      simp only [step, Option.ite_none_right_eq_some] at hs
      exact absurd hs.1.2 h.ref
    | @gcHandle q w₁ _ _ _ hq hrel =>
      obtain rfl : q = p := Option.some.inj hsub
      have href : ((w₁.setHandle q { w₁.handles q with finalized := true }).handles q).ref = (w.handles q).ref := by
        rw [World.setHandle_self]
        exact hq.view.ref
      refine ⟨hsound, hmade, hkind, by rw [href]; exact h.ref, ?_⟩
      rcases h.status with ⟨hl, ho⟩ | ht
      · obtain ⟨hlive, hout⟩ := releaseHandle_live h.sound.inv hl
        rw [← hrel] at hlive hout
        exact .inl ⟨hlive, fun hb => hout ▸ ho (hbus.symm.trans hb)⟩
      · exact .inr (ht.step h.sound h.made hs)
    | dropChan => exact absurd hsub (by simp [Step.subject])
    | closeChan => exact absurd hsub (by simp [Step.subject])
    | gcChan _ => exact absurd hsub (by simp [Step.subject])
    | busDrop => simp [dispatch] at hd
    | hup => simp [Step.sweeps] at hsw
    | err => simp [Step.sweeps] at hsw
    | closeBus => simp [Step.sweeps] at hsw

/-! ### Calm steps -/

/-- sd-bus calls back. -/
def callsBack : Step → Bool
  | .reply _ _ | .matched _ _ | .installed _ _ => true
  | _ => false

/-- What Janet code does inside comes back. -/
theorem dispatch_other (hs : callsBack s = false) (hd : dispatch p w s = some o) : ∃ w', o = .done w' := by
  have hcases : dispatch p w s = none ∨ dispatch p w s = (step w s).map .done := by
    cases s with
    | returned q =>
      by_cases hq : q = p
      · exact .inl (if_pos hq)
      · exact .inr (if_neg hq)
    | reply q m => exact absurd hs (by simp [callsBack])
    | matched q m => exact absurd hs (by simp [callsBack])
    | installed q m => exact absurd hs (by simp [callsBack])
    | hup => exact .inl rfl
    | err => exact .inl rfl
    | busDrop q => exact .inl rfl
    | _ => exact .inr rfl
  rcases hcases with hnone | hmap
  · exact absurd (hnone.symm.trans hd) (by simp)
  · obtain ⟨w', _, rfl⟩ := Option.map_eq_some_iff.mp (hmap.symm.trans hd)
    exact ⟨w', rfl⟩

/-- A callback raises at a closed channel, and only there. -/
theorem dispatch_raised {e : String} (hd : dispatch p w s = some (.raised w' e)) : ¬ Calm w s := by
  cases s with
  | reply q m =>
    simp only [dispatch, Option.ite_none_right_eq_some, Option.some.injEq] at hd
    obtain ⟨⟨_, _, hm⟩, hr⟩ := hd
    intro hopen
    obtain ⟨w₁, hdone⟩ := (processReply_gave (w := w) (p := q) hm.2.2.2).done_iff.mpr hopen
    rw [hdone] at hr
    exact absurd hr (by simp)
  | matched q m =>
    simp only [dispatch, Option.ite_none_right_eq_some, Option.some.injEq] at hd
    rintro (hm | hopen)
    · obtain ⟨w₁, hdone, _⟩ := processMatch_other (w := w) (p := q) hm
      rw [hdone] at hd
      exact absurd hd.2 (by simp)
    · obtain ⟨w₁, hdone⟩ := processMatch_done (m := m) hopen
      rw [hdone] at hd
      exact absurd hd.2 (by simp)
  | installed q m =>
    simp only [dispatch, Option.ite_none_right_eq_some, Option.some.injEq] at hd
    rintro (hm | hopen)
    · obtain ⟨w₁, hdone, _⟩ := processInstall_accepted (w := w) (p := q) hm
      rw [hdone] at hd
      exact absurd hd.2 (by simp)
    · obtain ⟨w₁, hdone⟩ := processInstall_done (m := m) hopen
      rw [hdone] at hd
      exact absurd hd.2 (by simp)
  | _ =>
    obtain ⟨_, hno⟩ := dispatch_other rfl hd
    exact absurd hno (by simp)

/-- A callback ends. -/
theorem dispatch_ends : dispatch p w s ≠ some .diverged := by
  intro hd
  cases s with
  | reply q m =>
    simp only [dispatch, Option.ite_none_right_eq_some, Option.some.injEq] at hd
    obtain ⟨⟨_, _, hm⟩, hr⟩ := hd
    have hends := processReply_gave (w := w) (p := q) hm.2.2.2
    rw [hr] at hends
    exact hends
  | matched q m =>
    simp only [dispatch, Option.ite_none_right_eq_some, Option.some.injEq] at hd
    by_cases hm : m.type = .other
    · obtain ⟨w₁, hdone, _⟩ := processMatch_other (w := w) (p := q) hm
      rw [hdone] at hd
      exact absurd hd.2 (by simp)
    · have hends := processMatch_gave (w := w) (p := q) hm
      rw [hd.2] at hends
      exact hends
  | installed q m =>
    simp only [dispatch, Option.ite_none_right_eq_some, Option.some.injEq] at hd
    by_cases hm : ∃ error, m.type = .methodError error
    · obtain ⟨error, hm⟩ := hm
      have hends := processInstall_refused (w := w) (p := q) hm
      rw [hd.2] at hends
      exact hends
    · obtain ⟨w₁, hdone, _⟩ := processInstall_accepted (w := w) (p := q) (not_exists.mp hm)
      rw [hdone] at hd
      exact absurd hd.2 (by simp)
  | _ =>
    obtain ⟨_, hno⟩ := dispatch_other rfl hd
    exact absurd hno (by simp)

/-- After a step inside the connection is open if it was and the step was calm. -/
theorem dispatch_calm (h : Inv w) (hd : dispatch p w s = some (.done w')) :
    w'.conn.bus = true ↔ w.conn.bus = true ∧ Calm w s := by
  have hs := dispatch_step hd rfl
  have he := step_effect h hs
  cases hsw : s.sweeps with
  | true =>
    cases s with
    | closeBus =>
      have hclose : (cfunCloseBus w).world? = some w' := hs
      have hnear := cfunCloseBus_near h p
      cases hc : cfunCloseBus w with
      | diverged => rw [hc] at hclose; exact absurd hclose (by simp [Outcome.world?])
      | done w₁ =>
        rw [hc] at hclose hnear
        obtain rfl := Option.some.inj hclose
        rw [hnear.2.1]
        exact ⟨fun hb => absurd hb (by decide), fun hr => absurd ⟨w₁, hc⟩ hr.2⟩
      | raised w₁ e =>
        rw [hc] at hclose hnear
        obtain rfl := Option.some.inj hclose
        rw [hnear.bus]
        exact ⟨fun hb => ⟨hb, fun hex => hex.elim fun w₂ hdone => absurd (hc.symm.trans hdone) (by simp)⟩, And.left⟩
    | hup => simp [dispatch] at hd
    | err => simp [dispatch] at hd
    | _ => simp [Step.sweeps] at hsw
  | false =>
    rw [(he.conn hsw).1]
    suffices hcalm : Calm w s from ⟨fun hb => ⟨hb, hcalm⟩, And.left⟩
    cases s with
    | reply q m =>
      simp only [dispatch, Option.ite_none_right_eq_some, Option.some.injEq] at hd
      obtain ⟨⟨_, _, hm⟩, hr⟩ := hd
      exact (processReply_gave (w := w) (p := q) hm.2.2.2).done_iff.mp ⟨w', hr⟩
    | matched q m =>
      simp only [dispatch, Option.ite_none_right_eq_some, Option.some.injEq] at hd
      by_cases hm : m.type = .other
      · exact .inl hm
      · exact .inr ((processMatch_gave hm).done_iff.mp ⟨w', hd.2⟩)
    | installed q m =>
      simp only [dispatch, Option.ite_none_right_eq_some, Option.some.injEq] at hd
      by_cases hm : ∃ error, m.type = .methodError error
      · obtain ⟨error, hm⟩ := hm
        exact .inr ((processInstall_refused hm).done_iff.mp ⟨w', hd.2⟩)
      · exact .inl (not_exists.mp hm)
    | closeBus => simp [Step.sweeps] at hsw
    | _ => trivial

/-! ### The processing -/

/-- The record shows: its slot is registered, or it has been written for. -/
def Shows (p : Ptr) (w : World) : Prop :=
  (w.slots p).connected = true ∨ ∃ c t, .wrote .handler p c t ∈ w.log

theorem Pending.shows (h : Pending p w) : Shows p w := h.status.imp (·.1.1) (·.1)

/-- When a callback raises, the record shows. -/
theorem Pending.raised {e : String} (h : Pending p w) (hd : dispatch p w s = some (.raised w' e)) :
    Shows p w' := by
  have hs := dispatch_step hd rfl
  rcases h.status with ⟨hl, _⟩ | ht
  swap
  · exact .inr (ht.step h.sound h.made hs).1
  have he := step_effect h.sound.inv hs
  have hsw : s.sweeps = false := by
    cases s with
    | hup => simp [dispatch] at hd
    | err => simp [dispatch] at hd
    | closeBus =>
      obtain ⟨_, hno⟩ := dispatch_other rfl hd
      exact absurd hno (by simp)
    | _ => rfl
  by_cases hsub : s.subject w = some p
  · cases s with
    | reply q m =>
      obtain rfl : q = p := Option.some.inj hsub
      simp only [dispatch, Option.ite_none_right_eq_some, Option.some.injEq] at hd
      obtain ⟨⟨_, _, hm⟩, hr⟩ := hd
      exact .inl ((processReply_raised h.kind hm.type hr).trans hl.1)
    | matched q m =>
      obtain rfl : q = p := Option.some.inj hsub
      simp only [dispatch, Option.ite_none_right_eq_some, Option.some.injEq] at hd
      exact absurd ((World.callable_spec hd.1).2.2.1.symm.trans h.kind) (by decide)
    | installed q m =>
      obtain rfl : q = p := Option.some.inj hsub
      simp only [dispatch, Option.ite_none_right_eq_some, Option.some.injEq] at hd
      exact absurd ((World.callable_spec hd.1.1).2.2.1.symm.trans h.kind) (by decide)
    | _ =>
      obtain ⟨_, hno⟩ := dispatch_other rfl hd
      exact absurd hno (by simp)
  · have hslot : w'.slots p = w.slots p := congrArg View.slot (he.others hsw hsub)
    exact .inl (by rw [hslot]; exact hl.1)

/-- What is processed inside is a run of the connection. -/
theorem processing_run : ∀ {ss : List Step} {w w' : World}, processing p ss w = some (.done w') →
    exec step w ss = some w' ∧ (Meets (turn p) StepOk w ss → Meets step StepOk w ss)
  | [], w, w', hp => by
    obtain rfl := Outcome.done.inj (Option.some.inj hp)
    exact ⟨rfl, fun _ => trivial⟩
  | s :: ss, w, w', hp => by
    obtain ⟨o, hd, hp⟩ := Option.bind_eq_some_iff.mp hp
    cases o with
    | done w₁ =>
      obtain ⟨hexec, hmeets⟩ := processing_run hp
      have hs := dispatch_step hd rfl
      refine ⟨by rw [exec, hs, Option.bind_some, hexec], fun hok w₂ hs₂ => ?_⟩
      obtain rfl := Option.some.inj (hs.symm.trans hs₂)
      obtain ⟨hok₁, hrest⟩ := hok w₁ (turn_done hd)
      exact ⟨hok₁, hmeets hrest⟩
    | raised w₁ e => exact absurd (Option.ite_none_right_eq_some.mp hp).2 (by simp)
    | diverged => exact absurd (Option.ite_none_right_eq_some.mp hp).2 (by simp)

/-- The processing ends with the record under way, and the connection open if it was calm; or it is cut
    short at a step that was not. -/
theorem Pending.processing : ∀ {ss : List Step} {w : World} {o : Outcome}, Pending p w →
    Meets (turn p) StepOk w ss → Atomic.processing p ss w = some o →
    (∃ w', o = .done w' ∧ Pending p w' ∧
      (w'.conn.bus = true ↔ w.conn.bus = true ∧ Meets (turn p) Calm w ss)) ∨
    ∃ w' e, o = .raised w' e ∧ Shows p w' ∧ ¬ Meets (turn p) Calm w ss
  | [], w, o, h, _, hp => by
    obtain rfl := Option.some.inj hp
    exact .inl ⟨w, rfl, h, ⟨fun hb => ⟨hb, trivial⟩, And.left⟩⟩
  | s :: ss, w, o, h, hok, hp => by
    obtain ⟨o₁, hd, hp⟩ := Option.bind_eq_some_iff.mp hp
    cases o₁ with
    | done w₁ =>
      have hturn := turn_done hd
      obtain ⟨hok₁, hrest⟩ := hok w₁ hturn
      have hcalm := dispatch_calm h.sound.inv hd
      have hmeets : Meets (turn p) Calm w (s :: ss) ↔ Calm w s ∧ Meets (turn p) Calm w₁ ss := by
        refine ⟨fun hm => hm w₁ hturn, fun hm w₂ hw₂ => ?_⟩
        obtain rfl := Option.some.inj (hturn.symm.trans hw₂)
        exact hm
      rcases Pending.processing (h.done hok₁ hd) hrest hp with ⟨w', rfl, h', hbus⟩ | ⟨w', e, rfl, hshows, hno⟩
      · refine .inl ⟨w', rfl, h', ?_⟩
        rw [hbus, hcalm, hmeets, and_assoc]
      · exact .inr ⟨w', e, rfl, hshows, fun hm => hno (hmeets.mp hm).2⟩
    | raised w₁ e =>
      obtain ⟨_, hp⟩ := Option.ite_none_right_eq_some.mp hp
      obtain rfl := Option.some.inj hp
      have hturn : turn p w s = some w₁ := by rw [turn, hd]; rfl
      exact .inr ⟨w₁, e, rfl, h.raised hd, fun hm => dispatch_raised hd (hm w₁ hturn).1⟩
    | diverged => exact absurd hd dispatch_ends

/-! ### The new record -/

theorem Sound.start (h : Sound w) (c : ChanId) (kind : Kind) (rv : ℤ) : (startAsync w c kind rv).All Sound := by
  have hi := h.inv.start c kind rv
  have hst := startAsync_started h.inv c kind rv
  have hfresh : ∀ w', Async.Inv w' → Started w w' c kind rv → Sound w' := by
    intro w' hi hst
    refine ⟨hi, fun x hx => ?_⟩
    rw [hst.nextPtr] at hx
    rw [view_hist (hst.others x (Nat.ne_of_gt hx)), h.fresh x (Nat.le_of_succ_le hx)]
  cases hc : startAsync w c kind rv with
  | diverged => rw [hc] at hi; exact hi
  | done w' => rw [hc] at hi hst; exact hfresh w' hi hst
  | raised w' e => rw [hc] at hi hst; exact hfresh w' hi hst

theorem startAsync_done {kind : Kind} {rv : ℤ} (hs : startAsync w c kind rv = .done w') : ¬ rv < 0 := by
  intro hrv
  simp [startAsync, hrv] at hs

theorem startAsync_raised {kind : Kind} {rv : ℤ} {e : String} (hs : startAsync w c kind rv = .raised w' e) :
    rv < 0 := by
  by_contra hrv
  simp [startAsync, hrv] at hs

theorem new_off (h : Inv w) : (w.slots w.nextPtr).connected = false := by
  cases hc : (w.slots w.nextPtr).connected with
  | false => rfl
  | true => exact absurd (h.fresh _ (Nat.le_refl _)) (Nat.ne_of_gt (h.alive _ hc))

/-- A call that sd-bus refuses leaves nothing. -/
theorem refused_unchanged {kind : Kind} {rv : ℤ} {e : String} (h : Sound w)
    (hs : startAsync w c kind rv = .raised w' e) : Unchanged w w' := by
  have hrv := startAsync_raised hs
  have h' := Sound.start h c kind rv
  have hst := startAsync_started h.inv c kind rv
  rw [hs] at h' hst
  have hnil : history w.nextPtr w.log = [] := h.fresh _ (Nat.le_refl _)
  have hview : w'.view w.nextPtr = rejectView w c kind := by
    rcases hst.subject with ⟨hno, _⟩ | ⟨_, hv, _⟩
    · exact absurd hrv hno
    · exact hv
  refine ⟨?_, fun x => ?_, fun steps w'' hok hexec src d t ht => ?_⟩
  · simp only [startAsync, hrv, if_true, Outcome.raised.injEq] at hs
    have hlog : w'.log = w.log := by rw [← hs.1]; rfl
    rw [h'.inv.queued_eq, h.inv.queued_eq, hlog]
  · by_cases hx : x = w.nextPtr
    · rw [hx]
      exact congrArg (fun v => v.slot.connected) hview
    · exact congrArg (fun v => v.slot.connected) (hst.others x hx)
  · have hlt : w.nextPtr < w'.nextPtr := by rw [hst.nextPtr]; exact Nat.lt_succ_self _
    obtain ⟨_, _, haged⟩ := run_aged h' hok hexec hlt
    rcases haged.written src d t ((mem_history rfl).mpr ht) with hold | hno
    · rw [hview, rejectView, World.view, hnil] at hold
      exact absurd hold List.not_mem_nil
    · rw [hview] at hno
      exact hno ⟨decide_eq_false h.inv.nextPtr_notMem, new_off h.inv⟩

/-- A record that shows is a change. -/
theorem Shows.changed (h : Async.Inv w) (hs : Shows w.nextPtr w') : ¬ Unchanged w w' := by
  intro hu
  rcases hs with hconn | ⟨c, t, ht⟩
  · exact absurd (hconn.symm.trans ((hu.connected _).trans (new_off h))) (by decide)
  · exact hu.silent [] w' trivial rfl _ _ _ ht

/-- The record as the call has published it. -/
theorem started_pending {rv : ℤ} (h : Sound w) (hs : startAsync w c .Call rv = .done w₁) :
    Pending w.nextPtr w₁ := by
  have hrv := startAsync_done hs
  have h₁ := Sound.start h c .Call rv
  have hst := startAsync_started h.inv c .Call rv
  rw [hs] at h₁ hst
  have hview : w₁.view w.nextPtr = startView w c .Call := by
    rcases hst.subject with ⟨_, hv, _⟩ | ⟨hneg, _⟩
    · exact hv
    · exact absurd hneg hrv
  have href : (w₁.handles w.nextPtr).ref = .callee := congrArg (fun v => v.handle.ref) hview
  refine ⟨h₁, by rw [hst.nextPtr]; exact Nat.lt_succ_self _, congrArg View.kind hview, by rw [href]; decide, ?_⟩
  refine .inl ⟨⟨congrArg (fun v => v.slot.connected) hview, congrArg (fun v => v.slot.floating) hview⟩, fun _ => ?_⟩
  exact of_decide_eq_true (congrArg View.outstanding hview)

theorem count_history {e : Event} (he : e.record = some p) (l : List Event) :
    (history p l).count e = l.count e := List.count_filter (decide_eq_true he)

/-- No record is made by steps that make none. -/
theorem run_nextPtr {ss : List Step} (h : Sound w) (hok : Meets step StepOk w ss) (hs : exec step w ss = some w')
    (hmakes : ∀ s ∈ ss, s.makes = none) : w'.nextPtr = w.nextPtr := by
  have hrun := (hok.and hmakes).invariant (I := fun w₁ => Sound w₁ ∧ w₁.nextPtr = w.nextPtr) ?_ ⟨h, rfl⟩ hs
  · exact hrun.2
  · rintro w₁ s w₂ ⟨hsound, hn⟩ ⟨hok, hmake⟩ hs
    refine ⟨hsound.step hok hs, ?_⟩
    obtain ⟨_, hle⟩ := step_aged hsound hs
    rcases Nat.lt_or_eq_of_le hle with hlt | heq
    · obtain ⟨_, c, kind, hmakes, _⟩ := step_new hsound hs (Nat.le_refl _) hlt
      exact absurd (hmake.symm.trans hmakes) (by simp)
    · exact heq.symm.trans hn

/-- A call that comes back has made its record, and nothing else has. -/
theorem run_registered {kind : Kind} {rv : ℤ} {ss : List Step} (h : Sound w)
    (hs : startAsync w c kind rv = .done w₁) (hok : Meets step StepOk w₁ ss) (hexec : exec step w₁ ss = some w')
    (hpending : .answered w.nextPtr ∉ w'.log → w.nextPtr ∈ outstanding w'.log ∧
      (w'.slots w.nextPtr).connected = true) : Registered w c kind ss w' := by
  have hrv := startAsync_done hs
  have h₁ := Sound.start h c kind rv
  have hst := startAsync_started h.inv c kind rv
  rw [hs] at h₁ hst
  have hview : w₁.view w.nextPtr = startView w c kind := by
    rcases hst.subject with ⟨_, hv, _⟩ | ⟨hneg, _⟩
    · exact hv
    · exact absurd hneg hrv
  have hlt : w.nextPtr < w₁.nextPtr := by rw [hst.nextPtr]; exact Nat.lt_succ_self _
  obtain ⟨h', hlt', haged⟩ := run_aged h₁ hok hexec hlt
  rw [hview] at haged
  have hnil : history w.nextPtr w.log = [] := h.fresh _ (Nat.le_refl _)
  refine ⟨hlt', haged.chan, haged.kind, haged.cookie, ?_, fun hno => ?_, fun hmakes x hx hoff => ?_⟩
  · have hcount := haged.queued
    rw [startView, hnil, List.count_singleton_self] at hcount
    rw [← count_history rfl]
    exact hcount
  · obtain ⟨ho, hconn⟩ := hpending hno
    refine ⟨?_, hconn⟩
    rw [h'.inv.queued_eq]
    exact List.count_eq_one_of_mem h'.inv.repr.nodup ho
  · have hn := run_nextPtr h₁ hok hexec hmakes
    have hxlt : x < w'.nextPtr := by
      by_contra hge
      have := h'.inv.alive x hx
      rw [h'.inv.fresh x (Nat.le_of_not_lt hge)] at this
      exact Nat.lt_irrefl _ this
    rw [hn] at hxlt
    by_contra hne
    obtain ⟨_, _, hx_aged⟩ := run_aged h₁ hok hexec hxlt
    have hold : (w₁.slots x).connected = (w.slots x).connected :=
      congrArg (fun v => v.slot.connected) (hst.others x hne)
    have hback : (w₁.slots x).connected = true := hx_aged.connected hx
    exact absurd (hback.symm.trans (hold.trans hoff)) (by decide)

theorem Pending.registered {rv : ℤ} {ss : List Step} (h : Sound w) (hs : startAsync w c .Call rv = .done w₁)
    (hok : Meets step StepOk w₁ ss) (hexec : exec step w₁ ss = some w') (hp : Pending w.nextPtr w')
    (hbus : w'.conn.bus = true) : Registered w c .Call ss w' := by
  refine run_registered h hs hok hexec fun hno => ?_
  rcases hp.status with ⟨hl, ho⟩ | ht
  · exact ⟨ho hbus, hl.1⟩
  · exact absurd ht.2 hno

theorem matchAsync_atomic (h : Sound w) (c : ChanId) (rv : ℤ) :
    AllOrNothing w c .Match [] (Async.cfunMatchAsync w c rv) := by
  have h₁ := Sound.start h c .Match rv
  have hst := startAsync_started h.inv c .Match rv
  rw [Async.cfunMatchAsync]
  cases hs : startAsync w c .Match rv with
  | diverged => rw [hs] at h₁; exact h₁
  | raised w' e => exact refused_unchanged h hs
  | done w' =>
    rw [hs] at hst
    refine run_registered h hs trivial rfl fun _ => ?_
    rcases hst.subject with ⟨_, hv, _⟩ | ⟨hneg, _⟩
    · exact ⟨of_decide_eq_true (congrArg View.outstanding hv), congrArg (fun v => v.slot.connected) hv⟩
    · exact absurd hneg (startAsync_done hs)

/-- `call-async` is all or nothing if and only if sd-bus refuses the call, or setting the timer does not
    raise: nothing fails there, and what is processed inside is calm. `match-async` always is. -/
theorem atomic_iff (steps : List Step) (hok : Meets step StepOk initial steps)
    (hw : exec step initial steps = some w) (c : ChanId) :
    (∀ rv ss failure o, cfunCallAsync w c rv ss failure = some o →
      (∀ w₁, Async.cfunCallAsync w c rv = .done w₁ → Meets (turn w.nextPtr) StepOk w₁ ss) →
      (AllOrNothing w c .Call ss o ↔ rv < 0 ∨ (failure = none ∧
        ∀ w₁, Async.cfunCallAsync w c rv = .done w₁ → Meets (turn w.nextPtr) Calm w₁ ss))) ∧
    ∀ rv, AllOrNothing w c .Match [] (Async.cfunMatchAsync w c rv) := by
  have h : Sound w := hok.invariant (fun _ _ _ h hok hs => h.step hok hs) Sound.init hw
  refine ⟨fun rv ss failure o ho hmeets => ?_, matchAsync_atomic h c⟩
  obtain ⟨hguard, ho⟩ := Option.ite_none_right_eq_some.mp ho
  cases hs : Async.cfunCallAsync w c rv with
  | diverged =>
    have hall := Sound.start h c .Call rv
    rw [show startAsync w c .Call rv = .diverged from hs] at hall
    exact absurd hall id
  | raised w₁ e =>
    rw [hs] at ho
    obtain ⟨_, ho⟩ := Option.ite_none_right_eq_some.mp ho
    obtain rfl := Option.some.inj ho
    exact ⟨fun _ => .inl (startAsync_raised hs), fun _ => refused_unchanged h hs⟩
  | done w₁ =>
    rw [hs] at ho
    have hrv := startAsync_done hs
    have hbus : w₁.conn.bus = true := by
      have hst := startAsync_started h.inv c .Call rv
      rw [show startAsync w c .Call rv = .done w₁ from hs] at hst
      exact hst.bus.trans (hguard.resolve_left hrv)
    have hok₁ := hmeets w₁ hs
    have hcalm : (rv < 0 ∨ (failure = none ∧
        ∀ w₂, Outcome.done w₁ = .done w₂ → Meets (turn w.nextPtr) Calm w₂ ss)) ↔
        failure = none ∧ Meets (turn w.nextPtr) Calm w₁ ss := by
      constructor
      · rintro (hneg | ⟨hf, hall⟩)
        · exact absurd hneg hrv
        · exact ⟨hf, hall w₁ rfl⟩
      · rintro ⟨hf, hall⟩
        refine .inr ⟨hf, fun w₂ heq => ?_⟩
        obtain rfl := Outcome.done.inj heq
        exact hall
    rw [hcalm]
    obtain ⟨o₁, hproc, rfl⟩ := Option.map_eq_some_iff.mp ho
    rcases (started_pending h hs).processing hok₁ hproc with ⟨w', rfl, hp, hiff⟩ | ⟨w', e, rfl, hshows, hno⟩
    · obtain ⟨hexec, hmeets₁⟩ := processing_run hproc
      have hleft : ∀ msg, ¬ AllOrNothing w c .Call ss (.raised w' msg) := fun _ => hp.shows.changed h.inv
      cases failure with
      | some msg => exact ⟨fun ha => absurd ha (hleft msg), fun hr => absurd hr.1 (by simp)⟩
      | none =>
        cases hb : w'.conn.bus with
        | true =>
          have hend : (Outcome.done w').bind (endTimeout none) = .done w' := by
            rw [Outcome.bind, endTimeout, if_pos hb]
          rw [hend]
          exact ⟨fun _ => ⟨rfl, (hiff.mp hb).2⟩, fun _ => hp.registered h hs (hmeets₁ hok₁) hexec hb⟩
        | false =>
          have hend : (Outcome.done w').bind (endTimeout none) = .raised w' "failed to call sd_bus_process" := by
            rw [Outcome.bind, endTimeout, if_neg (by simp [hb])]
          rw [hend]
          refine ⟨fun ha => absurd ha (hleft _), fun hr => ?_⟩
          exact absurd ((hiff.mpr ⟨hbus, hr.2⟩).symm.trans hb) (by decide)
    · exact ⟨fun ha => absurd ha (hshows.changed h.inv), fun hr => absurd hr.2 hno⟩

/-- On a connection that has nothing pending, with a deadline that has not passed, the call registers one
    record. -/
theorem atomic_iff_fresh : ∃ w', cfunCallAsync initial 0 1 [] none = some (.done w') ∧
    AllOrNothing initial 0 .Call [] (.done w') ∧
    AllOrNothing initial 0 .Match [] (Async.cfunMatchAsync initial 0 1) := by
  have hrun : (cfunCallAsync initial 0 1 [] none).map (·.done?.isSome) = some true := by decide +kernel
  obtain ⟨o, ho, hdone⟩ := Option.map_eq_some_iff.mp hrun
  have hiff := atomic_iff [] trivial rfl 0
  have hall : AllOrNothing initial 0 .Call [] o :=
    (hiff.1 1 [] none o ho fun _ _ => trivial).mpr (.inr ⟨rfl, fun _ _ => trivial⟩)
  cases o with
  | done w' => exact ⟨w', ho, hall, hiff.2 1⟩
  | raised w' e => exact absurd hdone (by simp [Outcome.done?])
  | diverged => exact absurd hdone (by simp [Outcome.done?])

/-- When `timerfd_settime` fails the call raises, and its record stays queued. -/
theorem failedTimer_leaves : ¬ ∀ steps w, Meets step StepOk initial steps → exec step initial steps = some w →
    ∀ c rv ss failure o, cfunCallAsync w c rv ss failure = some o →
      (∀ w₁, Async.cfunCallAsync w c rv = .done w₁ → Meets (turn w.nextPtr) StepOk w₁ ss) →
      AllOrNothing w c .Call ss o := by
  intro h
  have hrun : (cfunCallAsync initial 0 1 [] (some "timerfd_settime: Invalid argument")).map
      (fun o => (o.done?.isSome, o.world?.map (·.queued))) = some (false, some [0]) := by
    decide +kernel
  obtain ⟨o, ho, hview⟩ := Option.map_eq_some_iff.mp hrun
  have hall := h [] initial trivial rfl 0 1 [] _ o ho fun _ _ => trivial
  cases o with
  | done w' => exact absurd hview (by simp [Outcome.done?])
  | diverged => exact absurd hview (by simp [Outcome.world?])
  | raised w' e =>
    have hq : w'.queued = [0] := Option.some.inj (congrArg Prod.snd hview)
    exact absurd (hall.queued.symm.trans hq) (by decide)

end JanetSdbus.Atomic
