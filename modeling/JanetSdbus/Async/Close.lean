import JanetSdbus.Async.Sweep

/-! Closed channels and `close-bus`.

    `janet_channel_give` raises on a closed channel, in the middle of `closeall_pending` as well as
    in a callback below `sd_bus_process`. `unwedged_iff` says for which states nothing goes wrong, where
    a `close-bus` that wrote through a freed record or used a finalized object has gone wrong too. -/

namespace JanetSdbus.Async
open Schemes.LinkedList Schemes.Run

variable {w w' w₁ : World} {p x : Ptr} {es : List Event}

/-- A `:close` tuple for record `p`. -/
def Event.closes (p : Ptr) : Event → Bool
  | .wrote .closeall q _ (.close _) => q = p
  | _ => false

/-- How many `:close` tuples record `p` has been sent. -/
def closeCount (p : Ptr) (l : List Event) : ℕ := (l.filter (·.closes p)).length

/-- `close-bus`, started in `w`, has ended in `w'` and done its work, and has touched no freed record
    and no finalized object on its way. -/
structure Closed (w w' : World) : Prop where
  intact : faults w'.log = faults w.log
  told : ∀ p ∈ w.queued, w.opened p → closeCount p w'.log = closeCount p w.log + 1
  released : ∀ p ∈ w.queued, (w'.handles p).slot = none
  queue : w'.conn.queue = none
  bus : w'.conn.bus = false
  bus_stream : w'.conn.bus_stream = none
  timer : w'.conn.timer = none

/-- Closed channels do not wedge the connection: `close-bus` does its work, sd-bus is not busy with a
    message that a panic left behind, and whatever it delivers comes back to it. -/
structure Unwedged (w : World) : Prop where
  close : ∃ w', cfunCloseBus w = .done w' ∧ Closed w w'
  idle : w.busy = false
  reply : ∀ p m, w.callable p .Call = true → (w.slots p).awaiting = true → w.isReply p m →
    ∃ w', processReply w p m = .done w' ∧ uses w'.log = uses w.log
  matched : ∀ p m, w.callable p .Match = true → ∃ w', processMatch w p m = .done w' ∧ uses w'.log = uses w.log
  installed : ∀ p m, w.callable p .Match = true → (w.slots p).awaiting = true → w.isReply p m →
    ∃ w', processInstall w p m = .done w' ∧ uses w'.log = uses w.log
  retry : ∀ w₁ e, cfunCloseBus w = .raised w₁ e → ∃ w₂, cfunCloseBus w₁ = .done w₂ ∧
    Closed w₁ w₂ ∧ ∀ p, closeCount p w₂.log ≤ closeCount p w.log + 1

/-- The listener can tell the pending records, whose channels are open and which the loop can visit;
    no panic has left sd-bus busy; and the channels of the records it may still call back take a
    tuple. -/
structure AllOpen (w : World) : Prop where
  listening : w.listening = true ∨ w.conn.queue = none
  queued : ∀ p ∈ w.queued, w.opened p ∧ Sweepable w p
  idle : w.busy = false
  calls : ∀ p, w.callable p .Call = true → (w.slots p).awaiting = true → w.takes p
  signals : ∀ p, w.callable p .Match = true → w.takes p

/-! ### The sweep -/

theorem closeCount_history (p : Ptr) (l : List Event) : closeCount p (history p l) = closeCount p l := by
  rw [closeCount, closeCount, history, List.filter_filter]
  congr 1
  refine List.filter_congr fun e _ => ?_
  cases hc : e.closes p with
  | false => simp
  | true =>
    have hr : e.record = some p := by
      cases e with
      | wrote src q c t => cases src <;> cases t <;> simp_all [Event.closes, Event.record]
      | _ => simp [Event.closes] at hc
    simp [hr]

theorem closeCount_append (p : Ptr) (l l' : List Event) :
    closeCount p (l ++ l') = closeCount p l + closeCount p l' := by
  simp [closeCount]

theorem closeCount_quiet {l : List Event}
    (h : ∀ e ∈ l, (∃ q, e = Event.answered q) ∨ ∃ q, e = .destroyed q) : closeCount p l = 0 := by
  rw [closeCount, List.length_eq_zero_iff, List.filter_eq_nil_iff]
  intro e he
  rcases h e he with ⟨q, rfl⟩ | ⟨q, rfl⟩ <;> simp [Event.closes]

/-- What the loop has done to the records of `w` when `l` is left to visit. -/
structure Closing (w : World) (tuple : Tuple) (l : List Ptr) (w' : World) : Prop where
  tuple : tuple = AsyncEvent.tuple .close
  left : ∀ x ∈ l, w'.view x = w.view x
  done : ∀ x ∈ outstanding w.log, x ∉ l → (w'.view x).handle.slot = none ∧
    closeCount x (w'.view x).hist = closeCount x (w.view x).hist + 1
  opened : ∀ x ∈ outstanding w.log, x ∉ l → w.opened x
  chans : w'.chans = w.chans
  chan : ∀ x, (w'.heap x).chan = (w.heap x).chan

theorem Closing.start (w : World) : Closing w (AsyncEvent.tuple .close) (outstanding w.log) w :=
  ⟨rfl, fun _ _ => rfl, fun _ hx hn => absurd hx hn, fun _ hx hn => absurd hx hn, rfl, fun _ => rfl⟩

theorem Closing.visit {tuple : Tuple} {l : List Ptr} (h : Inv w₁)
    (hl : ∃ l₁, outstanding w₁.log = l₁ ++ p :: l) (hJ : Closing w tuple (p :: l) w₁) :
    (closeallVisit tuple w₁ p).Ends (Closing w tuple l) fun _ => ¬ w.opened p := by
  obtain ⟨l₁, ho⟩ := hl
  have hpl : p ∉ l := by
    have hnd := h.repr.nodup
    rw [ho] at hnd
    exact (List.nodup_cons.mp (List.nodup_append.mp hnd).2.1).1
  have hopen : w.opened p ↔ (w₁.chans (w₁.heap p).chan).closed = false := by
    rw [World.opened, hJ.chans, hJ.chan]
  have hv := closeallVisit_ends h tuple p
  cases hc : closeallVisit tuple w₁ p with
  | diverged => rw [hc] at hv; exact hv
  | raised w₂ e =>
    rw [hc] at hv
    show ¬ w.opened p
    rw [hopen, hv.1]
    simp
  | done w₂ =>
    rw [hc] at hv
    obtain ⟨es, f, _⟩ := hv.frame
    have hp : w₁.view p = w.view p := hJ.left p (by simp)
    refine ⟨hJ.tuple, fun x hx => ?_, fun x hx hxl => ?_, fun x hx hxl => ?_, f.chans.trans hJ.chans,
      fun x => (f.chan x).trans (hJ.chan x)⟩
    · have hxp : x ≠ p := by rintro rfl; exact hpl hx
      rw [hv.view_other hxp]; exact hJ.left x (List.mem_cons_of_mem _ hx)
    · by_cases hxp : x = p
      · subst hxp
        obtain ⟨es₁, es₂, hh, hes⟩ := hv.view.hist
        refine ⟨hv.released, ?_⟩
        have h₁ : closeCount x es₁ = 0 := closeCount_quiet fun e he => hes e (by simp [he])
        have h₂ : closeCount x es₂ = 0 := closeCount_quiet fun e he => hes e (by simp [he])
        have h₃ : closeCount x [.wrote .closeall x (w₁.heap x).chan tuple] = 1 := by
          rw [hJ.tuple]; simp [closeCount, Event.closes, AsyncEvent.tuple]
        rw [hh, closeCount_append, closeCount_append, closeCount_append, h₁, h₂, h₃, hp]
        omega
      · rw [hv.view_other hxp]
        exact hJ.done x hx (by simp [hxp, hxl])
    · by_cases hxp : x = p
      · subst hxp; exact hopen.mpr hv.opened
      · exact hJ.opened x hx (by simp [hxp, hxl])

/-- The loop stops at a closed channel, and only there. -/
theorem cfunCloseBus_listening (h : Inv w) (hl : w.listening = true) :
    (cfunCloseBus w).Ends
      (fun w' => (∀ p ∈ w.queued, w.opened p) ∧ (faults w'.log = faults w.log → Closed w w'))
      fun _ => ∃ p ∈ w.queued, ¬ w.opened p := by
  have hb := cfunCloseBus_swept
    (J := fun tuple l w' => (∀ x ∈ l, x ∈ outstanding w.log) ∧ Closing w tuple l w')
    (R := fun _ => ∃ p ∈ outstanding w.log, ¬ w.opened p) ?_ h ⟨fun _ hx => hx, Closing.start w⟩
  · rw [h.queued_eq]
    cases hc : cfunCloseBus w with
    | diverged => rw [hc] at hb; exact hb
    | raised w₂ e => rw [hc] at hb; exact hb
    | done w₂ =>
      rw [hc] at hb
      obtain ⟨hbus, hst, hti, hb⟩ := hb
      rw [if_pos hl] at hb
      obtain ⟨w₃, ⟨_, hJ⟩, hs⟩ := hb
      have hview : ∀ x, w₂.handles x = (w₃.view x).handle ∧ history x w₂.log = (w₃.view x).hist :=
        fun x => ⟨congrArg View.handle (hs.views x), congrArg View.hist (hs.views x)⟩
      refine ⟨fun p hp => hJ.opened p hp (by simp), fun hintact => ⟨hintact, fun p hp _ => ?_, fun p hp => ?_,
        hs.queue, hbus, hst, hti⟩⟩
      · rw [h.queued_eq] at hp
        rw [← closeCount_history, (hview p).2, (hJ.done p hp (by simp)).2, World.view,
          closeCount_history]
      · rw [h.queued_eq] at hp
        rw [(hview p).1]; exact (hJ.done p hp (by simp)).1
  · rintro tuple p l w₂ hi hl ⟨hsub, hJ⟩
    have hv := hJ.visit hi hl
    cases hc : closeallVisit tuple w₂ p with
    | diverged => rw [hc] at hv; exact hv
    | raised w₃ e => rw [hc] at hv; exact ⟨p, hsub p (by simp), hv⟩
    | done w₃ => rw [hc] at hv; exact ⟨fun x hx => hsub x (List.mem_cons_of_mem _ hx), hv⟩

/-- Without a listener `close-bus` comes back, and leaves the queue as it is. -/
theorem cfunCloseBus_silent (hl : w.listening = false) :
    ∃ w', cfunCloseBus w = .done w' ∧ w'.log = w.log ∧ w'.conn.queue = w.conn.queue ∧
      w'.conn.bus = false ∧ w'.conn.bus_stream = none ∧ w'.conn.timer = none := by
  rw [cfunCloseBus, closeBusStream]
  cases hst : w.conn.bus_stream with
  | none => exact ⟨_, rfl, rfl, rfl, rfl, hst, rfl⟩
  | some st =>
    have hli : st.listening = false := by rw [World.listening, hst] at hl; exact hl
    simp only [hli, Bool.false_eq_true, if_false]
    exact ⟨_, rfl, rfl, rfl, rfl, rfl, rfl⟩

theorem close_iff_listening (h : Inv w) (hl : w.listening = true) :
    (∃ w', cfunCloseBus w = .done w' ∧ Closed w w') ↔ ∀ p ∈ w.queued, w.opened p ∧ Sweepable w p := by
  have hb := cfunCloseBus_listening h hl
  have hf := cfunCloseBus_faults h hl
  cases hc : cfunCloseBus w with
  | diverged => rw [hc] at hb; exact absurd hb id
  | raised w₂ e =>
    rw [hc] at hb
    obtain ⟨p, hp, hno⟩ := hb
    simp only [reduceCtorEq, false_and, exists_false, false_iff]
    exact fun hall => hno (hall p hp).1
  | done w₂ =>
    rw [hc] at hb hf
    constructor
    · rintro ⟨w', hw', hcl⟩
      obtain rfl := Outcome.done.inj hw'
      exact fun p hp => ⟨hb.1 p hp, hf.mp hcl.intact p hp⟩
    · intro hall
      exact ⟨w₂, rfl, hb.2 (hf.mpr fun p hp => (hall p hp).2)⟩

theorem close_iff_silent (h : Inv w) (hl : w.listening = false) :
    (∃ w', cfunCloseBus w = .done w' ∧ Closed w w') ↔ w.conn.queue = none := by
  obtain ⟨w₂, hc, hlog, hq, hbus, hst, hti⟩ := cfunCloseBus_silent hl
  rw [hc]
  constructor
  · rintro ⟨w', hw', hcl⟩
    obtain rfl := Outcome.done.inj hw'
    exact hq ▸ hcl.queue
  · intro hnone
    have hempty := h.queued_nil hnone
    refine ⟨w₂, rfl, by rw [hlog], ?_, ?_, hq.trans hnone, hbus, hst, hti⟩ <;> simp [hempty]

/-- `close-bus` does its work exactly when somebody listens, or nothing is pending, and the channels
    of the pending records are open and the records sweepable. -/
theorem close_iff (h : Inv w) : (∃ w', cfunCloseBus w = .done w' ∧ Closed w w') ↔
    (w.listening = true ∨ w.conn.queue = none) ∧ ∀ p ∈ w.queued, w.opened p ∧ Sweepable w p := by
  cases hl : w.listening with
  | true => rw [close_iff_listening h hl]; simp
  | false =>
    rw [close_iff_silent h hl]
    constructor
    · intro hnone
      exact ⟨Or.inr hnone, by simp [h.queued_nil hnone]⟩
    · rintro ⟨hnone, -⟩
      exact hnone.resolve_left Bool.false_ne_true

/-! ### Callbacks -/

/-- What a callback that gives a tuple uses. -/
theorem Gave.uses_iff {src : Source} {t : Tuple} (h : Gave w w' src p t) :
    uses w'.log = uses w.log ↔ (w.chans (w.heap p).chan).finalized = false := by
  obtain ⟨es₁, es₂, f, q₁, q₂⟩ := h
  rw [f.log, uses_append, uses_append, uses_append, uses_quiet q₁, uses_quiet q₂, Nat.add_zero, Nat.zero_add,
    Nat.add_eq_right, uses_giveLog]

theorem Quiet.uses (h : Quiet w w' p) : uses w'.log = uses w.log := by
  obtain ⟨es, f, hes⟩ := h
  rw [f.log, uses_append, uses_quiet hes, Nat.zero_add]

/-- A callback that gives a tuple comes back exactly when the channel is open. -/
theorem GaveEnds.done_iff {src : Source} {t : Tuple} {o : Outcome} (h : GaveEnds w src p t o) :
    (∃ w', o = .done w') ↔ w.opened p := by
  rw [World.opened]
  cases o with
  | done w' => exact ⟨fun _ => h.1, fun _ => ⟨w', rfl⟩⟩
  | raised w' e =>
    have hc : (w.chans (w.heap p).chan).closed = true := h.1
    simp [hc]
  | diverged => exact absurd h id

/-- ... and from a channel that is still there exactly when the channel takes the tuple. -/
theorem GaveEnds.takes_iff {src : Source} {t : Tuple} {o : Outcome} (h : GaveEnds w src p t o) :
    (∃ w', o = .done w' ∧ uses w'.log = uses w.log) ↔ w.takes p := by
  rw [World.takes, ← h.done_iff]
  cases o with
  | done w₁ =>
    have huse : uses w₁.log = uses w.log ↔ (w.chans (w.heap p).chan).finalized = false := h.2.uses_iff
    simp [huse]
  | raised w₁ e => simp
  | diverged => exact absurd h id

theorem processMatch_done {m : Message} (h : w.opened p) : ∃ w', processMatch w p m = .done w' := by
  by_cases hm : m.type = .other
  · obtain ⟨w', he, _⟩ := processMatch_other (w := w) (p := p) hm
    exact ⟨w', he⟩
  · exact (processMatch_gave hm).done_iff.mpr h

theorem processMatch_takes {m : Message} (h : w.takes p) :
    ∃ w', processMatch w p m = .done w' ∧ uses w'.log = uses w.log := by
  by_cases hm : m.type = .other
  · obtain ⟨w', he, hq⟩ := processMatch_other (w := w) (p := p) hm
    exact ⟨w', he, hq.uses⟩
  · exact (processMatch_gave hm).takes_iff.mpr h

theorem processInstall_done {m : Message} (h : w.opened p) : ∃ w', processInstall w p m = .done w' := by
  by_cases hm : ∃ error, m.type = .methodError error
  · obtain ⟨error, hm⟩ := hm
    exact (processInstall_refused hm).done_iff.mpr h
  · obtain ⟨w', he, _⟩ := processInstall_accepted (w := w) (p := p) (not_exists.mp hm)
    exact ⟨w', he⟩

theorem processInstall_takes {m : Message} (h : w.takes p) :
    ∃ w', processInstall w p m = .done w' ∧ uses w'.log = uses w.log := by
  by_cases hm : ∃ error, m.type = .methodError error
  · obtain ⟨error, hm⟩ := hm
    exact (processInstall_refused hm).takes_iff.mpr h
  · obtain ⟨w', he, hq⟩ := processInstall_accepted (w := w) (p := p) (not_exists.mp hm)
    exact ⟨w', he, hq.uses⟩

/-- Closed channels leave the connection usable exactly when there are none where it matters. -/
theorem unwedged_iff (h : Inv w) : Unwedged w ↔ AllOpen w := by
  constructor
  · intro hu
    obtain ⟨hl, hq⟩ := (close_iff h).mp hu.close
    refine ⟨hl, hq, hu.idle, fun p hc ha => ?_, fun p hc => ?_⟩
    · -- the reply sd-bus is waiting for
      let m : Message := { type := .methodReturn, replyCookie := some (w.slots p).cookie }
      have hm : w.isReply p m := ⟨rfl, by simp [m], by simp [m], by simp [m]⟩
      exact (processReply_gave hm.2.2.2).takes_iff.mp (hu.reply p m hc ha hm)
    · let m : Message := { type := .signal, replyCookie := none }
      exact (processMatch_gave (by simp [m])).takes_iff.mp (hu.matched p m hc)
  · intro ha
    have hclose := (close_iff h).mpr ⟨ha.listening, ha.queued⟩
    refine ⟨hclose, ha.idle, fun p m hc haw hm => ?_, fun p m hc => processMatch_takes (ha.signals p hc),
      fun p m hc _ _ => processInstall_takes (ha.signals p hc), fun w₁ e hr => ?_⟩
    · exact (processReply_gave hm.2.2.2).takes_iff.mpr (ha.calls p hc haw)
    · obtain ⟨w', hw', _⟩ := hclose
      rw [hw'] at hr; simp at hr

theorem unwedged_iff_call : ∃ w, step initial (.callAsync 0 1) = some w ∧
    (Unwedged w ↔ AllOpen w) := by
  cases hs : step initial (.callAsync 0 1) with
  | none => exact absurd hs (by decide +kernel)
  | some w => exact ⟨w, rfl, unwedged_iff (Inv.init.step (s := .callAsync 0 1) trivial hs)⟩

/-- Two calls, and the channel of the older one is closed. -/
def wedgedRun : List Step := [.callAsync 0 1, .callAsync 1 1, .closeChan 0]

/-- `close-bus` tells record 1 and raises at record 0; called again it tells record 1 again. -/
theorem wedgedRun_wedged : ¬ ∀ steps w, exec step initial steps = some w → Unwedged w := by
  intro h
  have hrun : (exec step initial wedgedRun).map
      (fun w => (cfunCloseBus w).done?.isSome) = some false := by
    decide +kernel
  obtain ⟨w, hw, hview⟩ := Option.map_eq_some_iff.mp hrun
  obtain ⟨w', hret, _⟩ := (h wedgedRun w hw).close
  rw [hret] at hview
  simp [Outcome.done?] at hview

end JanetSdbus.Async
