import JanetSdbus.Async.Sweep
import JanetSdbus.Schemes.Mailbox

/-! Pending operations as Janet code sees them.

    To its users the queue of async.c is a mailbox: an operation is pending from `call-async` or
    `match-async` on, a reply finishes a call, a match is told of messages, a cancel drops either, and
    the end of the connection shuts everything. `asks` says which of these a step is for. Records,
    slots, handles and the collector implement the mailbox as long as the steps are `Orderly`
    (`run_mailboxes`). -/

namespace JanetSdbus.Async
open Schemes.LinkedList Schemes.Run
open Schemes (Mailbox.State Mailbox.Action)

variable {w w' w₁ : World} {p : Ptr} {es l : List Event} {tuple : Tuple}

/-- What was written to a channel, and for which record. -/
def Event.answer : Event → Option (Ptr × ChanId × Tuple)
  | .wrote _ p c t => some (p, c, t)
  | _ => none

/-- All that was written, oldest first. -/
def answers (l : List Event) : List (Ptr × ChanId × Tuple) := (l.filterMap Event.answer).reverse

/-- The records the queue lists, and what the channels were given. -/
def World.mailbox (w : World) : Schemes.Mailbox.State Ptr ChanId Tuple where
  pending := w.queued.map fun p => (p, (w.heap p).chan)
  sent := answers w.log

/-- What a step means to the users of the connection. A match is dropped as well when nobody holds its
    slot any more: it was refused, and its handle was finalized. -/
def asks (w : World) : Step → List (Schemes.Mailbox.Action Ptr ChanId Tuple)
  | .callAsync c rv | .matchAsync c rv => if rv < 0 then [] else [.start w.nextPtr c]
  | .reply p m => [.finish p (handlerTuple .Call m)]
  | .matched p m => if m.type = .other then [] else [.tell p (handlerTuple .Match m)]
  | .installed p m =>
    match m.type with
    | .methodError error =>
      if (w.slots p).floating = true ∧ (w.slots p).refs = 1 then [.finish p (.error (formatError error))]
      else [.tell p (.error (formatError error))]
    | _ => []
  | .cancel p => [.drop p]
  | .gcHandle p => if (w.slots p).refs ≤ 1 then [.drop p] else []
  | .hup | .err => [.shut (AsyncEvent.tuple .hup)]
  | .closeBus => [.shut (AsyncEvent.tuple .close)]
  | _ => []

/-- What a step has to meet. Messages come for records that are still queued, to channels that are
    open and that the collector has left; a call that returns finds its record and its handle; a handle
    that is cancelled has not been finalized; the end of the connection finds the records `Sweepable`,
    and `close-bus` its listener attached or nothing to tell; and what drops the last reference to a
    slot can unlink its record. -/
def Orderly (w : World) : Step → Prop
  | .returned p => w.freed p = false ∧ (w.handles p).finalized = false
  | .reply p _ | .matched p _ => p ∈ w.queued ∧ w.takes p
  | .installed p m => (∃ error, m.type = .methodError error) → p ∈ w.queued ∧ w.takes p
  | .cancel p => StepOk w (.cancel p) ∧ (w.handles p).finalized = false
  | .gcHandle p => StepOk w (.gcHandle p)
  | .hup | .err => ∀ p ∈ w.queued, w.opened p ∧ Sweepable w p
  | .closeBus => (w.listening = true ∨ w.conn.queue = none) ∧ ∀ p ∈ w.queued, w.opened p ∧ Sweepable w p
  | _ => True

/-! ### Logs -/

theorem answers_append : answers (es ++ l) = answers l ++ answers es := by
  rw [answers, List.filterMap_append, List.reverse_append, answers, answers]

theorem answers_nil (hes : ∀ e ∈ es, e.answer = none) : answers es = [] := by
  rw [answers, List.filterMap_eq_nil_iff.mpr hes, List.reverse_nil]

theorem answers_silent (hes : ∀ e ∈ es, e.answer = none) : answers (es ++ l) = answers l := by
  rw [answers_append, answers_nil hes, List.append_nil]

theorem answer_quiet {e : Event} (he : e.quiet p = true) : e.answer = none := by
  cases e with
  | wrote src q c t => cases he
  | _ => rfl

theorem answers_quiet (hes : ∀ e ∈ es, e.quiet p = true) : answers es = [] :=
  answers_nil fun e he => answer_quiet (hes e he)

theorem answers_chanFault : answers (w.chanFault p) = [] := by
  refine answers_nil fun e he => ?_
  rw [World.chanFault] at he
  split at he
  · obtain rfl := List.mem_singleton.mp he
    rfl
  · cases he

theorem answers_freedOf {site : Site} {ps : List Ptr} : answers (w.freedOf site ps) = [] := by
  refine answers_nil fun e he => ?_
  obtain ⟨q, -, -, rfl⟩ := mem_freedOf.mp he
  rfl

theorem answers_wrote {src : Source} {c : ChanId} :
    answers (.wrote src p c tuple :: l) = answers l ++ [(p, c, tuple)] := by
  rw [← List.singleton_append, answers_append]
  rfl

theorem answers_giveLog {src : Source} (hopen : (w.chans (w.heap p).chan).closed = false) :
    answers (w.giveLog src p tuple) = [(p, (w.heap p).chan, tuple)] := by
  rw [World.giveLog, if_neg (by rw [hopen]; exact Bool.false_ne_true), answers_wrote, answers_chanFault]
  rfl

theorem answers_closeallLog : answers (w.closeallLog tuple p) = [(p, (w.heap p).chan, tuple)] := by
  have hfinal : answers (if (w.handles p).finalized then [.finalizedHandle p] else []) = [] := by
    split <;> rfl
  rw [World.closeallLog, answers_append, hfinal, answers_wrote, answers_append, answers_chanFault, answers_freedOf]
  rfl

/-- Operations on `p` take out no record but `p`. -/
theorem outstanding_subject (hes : ∀ e ∈ es, e.quiet p = true ∨ e.plain = true) (hnodup : (outstanding l).Nodup) :
    outstanding (es ++ l) = outstanding l ∨ outstanding (es ++ l) = (outstanding l).filter fun q => q ≠ p := by
  induction es with
  | nil => exact .inl rfl
  | cons e es ih =>
    have ih := ih fun e he => hes e (List.mem_cons_of_mem _ he)
    have herase : (outstanding (es ++ l)).erase p = (outstanding l).filter fun q => q ≠ p := by
      rcases ih with ih | ih
      · rw [ih, hnodup.erase_eq_filter]
        simp only [ne_eq, decide_not]
        rfl
      · rw [ih, List.erase_of_not_mem]
        simp
    rcases hes e List.mem_cons_self with he | he
    · cases e with
      | answered q =>
        obtain rfl : q = p := of_decide_eq_true he
        exact .inr herase
      | destroyed q =>
        obtain rfl : q = p := of_decide_eq_true he
        exact .inr herase
      | freedRecord site q => exact ih
      | _ => cases he
    · rw [← List.singleton_append, List.append_assoc, outstanding_plain]
      · exact ih
      · intro e' he'
        rw [List.mem_singleton.mp he', he]

/-! ### One operation at a time -/

theorem Inv.mailbox_eq (h : Inv w) :
    w.mailbox = ⟨(outstanding w.log).map fun p => (p, (w.heap p).chan), answers w.log⟩ := by
  rw [World.mailbox, h.queued_eq]

/-- An operation on a record that stays, or that was not there. -/
theorem Inv.mailbox_kept (h : Inv w) (h' : Inv w') (f : Frame w w' p es)
    (hsame : outstanding w'.log = outstanding w.log) :
    w'.mailbox = { w.mailbox with sent := w.mailbox.sent ++ answers es } := by
  rw [h'.mailbox_eq, h.mailbox_eq, hsame, f.log, answers_append]
  simp only [f.chan]

/-- An operation on a record that takes it out of the queue, if it was there. -/
theorem Inv.mailbox_gone (h : Inv w) (h' : Inv w') (f : Frame w w' p es)
    (hes : ∀ e ∈ es, e.quiet p = true ∨ e.plain = true) (hgone : p ∉ outstanding w'.log) :
    w'.mailbox = { w.mailbox.forget p with sent := w.mailbox.sent ++ answers es } := by
  have hpending : outstanding w'.log = (outstanding w.log).filter fun q => q ≠ p := by
    have hcases := outstanding_subject hes h.repr.nodup
    rw [← f.log] at hcases
    rcases hcases with hsame | hfilter
    · rw [hsame] at hgone ⊢
      refine (List.filter_eq_self.mpr fun q hq => ?_).symm
      exact decide_eq_true fun hqp => hgone (hqp ▸ hq)
    · exact hfilter
  rw [h'.mailbox_eq, h.mailbox_eq, hpending, f.log, answers_append]
  simp only [f.chan, Schemes.Mailbox.State.forget, List.filter_map]
  rfl

/-! ### The end of the connection -/

/-- In the loop of `closeall_pending`: of the records queued in `w₀` all but `l` were told. -/
structure Shutting (w₀ : World) (tuple : Tuple) (l : List Ptr) (w : World) : Prop where
  told : ∃ done, outstanding w₀.log = done ++ l ∧
    answers w.log = answers w₀.log ++ done.map fun p => (p, (w₀.heap p).chan, tuple)
  chan : ∀ x, (w.heap x).chan = (w₀.heap x).chan
  chans : w.chans = w₀.chans

/-- Everything that was queued was told, in the order of the queue, and nothing is queued. -/
structure Shut (w : World) (tuple : Tuple) (w' : World) : Prop where
  empty : outstanding w'.log = []
  told : answers w'.log = answers w.log ++ (outstanding w.log).map fun p => (p, (w.heap p).chan, tuple)

theorem Shutting.visit {w₀ : World} {l : List Ptr} (h : Inv w)
    (hopen : ∀ p ∈ outstanding w₀.log, (w₀.chans (w₀.heap p).chan).closed = false)
    (hJ : Shutting w₀ tuple (p :: l) w) : (closeallVisit tuple w p).Ends (Shutting w₀ tuple l) fun _ => False := by
  obtain ⟨done, hdone, htold⟩ := hJ.told
  have hp : (w.chans (w.heap p).chan).closed = false := by
    rw [hJ.chans, hJ.chan]
    exact hopen p (hdone ▸ List.mem_append_right _ List.mem_cons_self)
  have hends := closeallVisit_ends h tuple p
  cases hv : closeallVisit tuple w p with
  | diverged =>
    rw [hv] at hends
    exact hends
  | raised w' e =>
    rw [hv] at hends
    exact Bool.false_ne_true (hp.symm.trans hends.1)
  | done w' =>
    rw [hv] at hends
    obtain ⟨es, f, hes⟩ := hends.frame
    refine ⟨⟨done ++ [p], ?_, ?_⟩, fun x => (f.chan x).trans (hJ.chan x), f.chans.trans hJ.chans⟩
    · rw [hdone, List.append_assoc, List.singleton_append]
    · rw [f.log, answers_append, answers_append, answers_quiet hes, answers_closeallLog, htold, hJ.chan,
        List.append_nil, List.map_append, List.append_assoc]
      rfl

theorem closeallPending_shut (h : Inv w) (hopen : ∀ p ∈ outstanding w.log, (w.chans (w.heap p).chan).closed = false) :
    (closeallPending w tuple).Ends (Shut w tuple) fun _ => False := by
  have hstart : Shutting w tuple (outstanding w.log) w :=
    ⟨⟨[], rfl, (List.append_nil _).symm⟩, fun _ => rfl, rfl⟩
  have hends := closeallPending_ends tuple (fun p l w hi _ hJ => hJ.visit hi hopen) h hstart
  cases hc : closeallPending w tuple with
  | diverged =>
    rw [hc] at hends
    exact hends
  | raised w' e =>
    rw [hc] at hends
    exact hends.2
  | done w' =>
    rw [hc] at hends
    rcases hends.2 with ⟨rfl, hqueue⟩ | ⟨w₁, -, hJ, rfl⟩
    · have hnone : outstanding w'.log = [] := by
        by_contra hne
        exact h.repr.ne_nil_iff.mp hne hqueue
      refine ⟨hnone, ?_⟩
      rw [hnone]
      exact (List.append_nil _).symm
    · obtain ⟨done, hdone, htold⟩ := hJ.told
      rw [List.append_nil] at hdone
      refine ⟨rfl, ?_⟩
      rw [hdone, ← htold]
      rfl

theorem busCallback_shut (ev : AsyncEvent) (h : Inv w)
    (hopen : ∀ p ∈ outstanding w.log, (w.chans (w.heap p).chan).closed = false) :
    (busCallback w ev).Ends (Shut w ev.tuple) fun _ => False := by
  have hend : ((closeallPending w ev.tuple).bind fun w => .done w.endListener).Ends (Shut w ev.tuple) fun _ => False :=
    (closeallPending_shut h hopen).bind fun w' _ hw' => ⟨hw'.empty, hw'.told⟩
  cases ev <;> exact hend

/-- `close-bus` tells the queued records if the listener is attached, or if there are none. -/
theorem cfunCloseBus_shut (h : Inv w) (hlisten : w.listening = true ∨ w.conn.queue = none)
    (hopen : ∀ p ∈ outstanding w.log, (w.chans (w.heap p).chan).closed = false) :
    (cfunCloseBus w).Ends (Shut w (AsyncEvent.tuple .close)) fun _ => False := by
  have hidle : w.listening = false → Shut w (AsyncEvent.tuple .close) w := by
    intro hno
    have hnone : outstanding w.log = [] := by
      by_contra hne
      rcases hlisten with hl | hq
      · exact Bool.false_ne_true (hno.symm.trans hl)
      · exact h.repr.ne_nil_iff.mp hne hq
    refine ⟨hnone, ?_⟩
    rw [hnone]
    exact (List.append_nil _).symm
  rw [cfunCloseBus, closeBusStream]
  cases hst : w.conn.bus_stream with
  | none =>
    have hshut := hidle (by rw [World.listening, hst])
    exact ⟨hshut.empty, hshut.told⟩
  | some st =>
    cases hli : st.listening with
    | false =>
      have hshut := hidle (by rw [World.listening, hst]; exact hli)
      simp only [hli, Bool.false_eq_true, if_false, Outcome.bind]
      exact ⟨hshut.empty, hshut.told⟩
    | true =>
      simp only [hli, if_true]
      refine ((busCallback_shut .close h hopen).bind fun w' _ hw' => ?_).bind fun w' _ hw' => hw'
      exact ⟨hw'.empty, hw'.told⟩

theorem Shut.mailbox (hw : Shut w tuple w') (h : Inv w) (h' : Inv w') :
    exec Schemes.Mailbox.step w.mailbox [.shut tuple] = some w'.mailbox := by
  rw [exec, Schemes.Mailbox.step, Option.bind_some, h'.mailbox_eq, h.mailbox_eq, hw.empty, hw.told, List.map_map]
  rfl

/-! ### Callbacks -/

theorem messageHandler_logs {m : Message} (hk : (w.heap p).kind = .Match)
    (hopen : (w.chans (w.heap p).chan).closed = false) : ∃ es, messageHandler w p m = .done (w.logged es) := by
  obtain ⟨es, he, -⟩ := touch_eq (w := w) handler_ne_dequeue [p]
  have hk' : ((w.logged es).heap p).kind = .Match := hk
  have hgive : ∀ t, ∃ es', channelGive (w.logged es) .handler p t = .done (w.logged es') := by
    intro t
    have hopen' : ¬ ((w.logged es).chans ((w.logged es).heap p).chan).closed = true := by
      rw [Bool.not_eq_true]
      exact hopen
    rw [channelGive_eq, if_neg hopen', logged_logged]
    exact ⟨_, rfl⟩
  rw [messageHandler]
  simp only [he, hk', reduceCtorEq, if_false]
  cases m.type with
  | other => exact ⟨es, rfl⟩
  | _ => exact hgive _

theorem signalInstallHandler_logs {m : Message}
    (hopen : (∃ error, m.type = .methodError error) → (w.chans (w.heap p).chan).closed = false) :
    ∃ es, signalInstallHandler w p m = .done (w.logged es) ∧ ∀ e ∈ es, e.plain = true := by
  obtain ⟨es, he, hes⟩ := touch_eq (w := w) handler_ne_dequeue [p]
  rw [signalInstallHandler]
  simp only [he]
  cases hm : m.type with
  | methodError error =>
    have hopen' : ¬ ((w.logged es).chans ((w.logged es).heap p).chan).closed = true := by
      rw [Bool.not_eq_true]
      exact hopen ⟨error, hm⟩
    simp only [channelGive_eq, if_neg hopen', logged_logged]
    refine ⟨_, rfl, plain_append hes fun e he => ?_⟩
    rcases List.mem_cons.mp he with rfl | he
    · rfl
    · exact chanFault_plain _ _ e he
  | _ => exact ⟨es, rfl, hes⟩

theorem slotUnref_held (hmore : 1 < (w.slots p).refs) :
    ((slotUnref w p).slots p).refs + 1 = (w.slots p).refs ∧ (slotUnref w p).busRef p = w.busRef p := by
  rw [World.busRef, slotUnref_more hmore, World.setSlot_self]
  exact ⟨Nat.sub_add_cancel (Nat.le_of_lt hmore), rfl⟩

/-- The slot of a match and its holders, after it was told of a message or its rule was installed. -/
def SameHolders (w w' : World) (p : Ptr) : Prop :=
  w'.handles = w.handles ∧ (w'.slots p).refs + w.busRef p = (w.slots p).refs + w'.busRef p

theorem Inv.matched_held (h : Inv w) {m : Message} (hk : (w.heap p).kind = .Match)
    (hc : (w.slots p).connected = true) (hopen : (w.chans (w.heap p).chan).closed = false)
    (hw : (processMatch w p m).world? = some w') : SameHolders w w' p := by
  obtain ⟨es, he⟩ := messageHandler_logs (w := slotRef w p) (p := p) (m := m) hk hopen
  rw [processMatch, he] at hw
  obtain rfl := Option.some.inj hw
  have hslot : ((slotRef w p).logged es).slots p = { w.slots p with refs := (w.slots p).refs + 1 } :=
    World.setSlot_self _ _ _
  have hrefs : (((slotRef w p).logged es).slots p).refs = (w.slots p).refs + 1 := by rw [hslot]
  have hbus : ((slotRef w p).logged es).busRef p = w.busRef p := by
    rw [World.busRef, hslot]
    rfl
  have hpos := h.alive p hc
  obtain ⟨hunref, hbus'⟩ := slotUnref_held (w := (slotRef w p).logged es) (p := p) (by omega)
  exact ⟨slotUnref_handles _ p, by omega⟩

/-- sd-bus has taken a reference for the callback and written to the log. -/
structure Entered (w u : World) (p : Ptr) : Prop where
  refs : (u.slots p).refs = (w.slots p).refs + 1
  bus : u.busRef p = w.busRef p
  handles : u.handles = w.handles
  outstanding : outstanding u.log = outstanding w.log

theorem processInstall_enters {m : Message}
    (hopen : (∃ error, m.type = .methodError error) → (w.chans (w.heap p).chan).closed = false)
    (hw : (processInstall w p m).world? = some w') :
    ∃ u, Entered w u p ∧ ((∃ error, m.type = .methodError error) ∧ w' = slotUnref (slotDetach u p) p ∨
      (¬ ∃ error, m.type = .methodError error) ∧ w' = slotUnref u p) := by
  obtain ⟨es, he, hes⟩ := signalInstallHandler_logs (w := slotEnter w p) (p := p) (m := m) hopen
  have hslot : ((slotEnter w p).logged es).slots p =
      { w.slots p with awaiting := false, refs := (w.slots p).refs + 1 } := slotEnter_slot w p
  refine ⟨(slotEnter w p).logged es, ⟨by rw [hslot], ?_, rfl, outstanding_plain hes⟩, ?_⟩
  · rw [World.busRef, hslot]
    rfl
  · rw [processInstall, he] at hw
    cases hm : m.type with
    | methodError error =>
      simp only [hm, Outcome.bind, Outcome.dispatched, Outcome.world?, Option.some.injEq] at hw
      exact .inl ⟨⟨error, rfl⟩, hw.symm⟩
    | _ =>
      simp only [hm, Outcome.bind, Outcome.dispatched, Outcome.world?, Option.some.injEq] at hw
      refine .inr ⟨?_, hw.symm⟩
      rintro ⟨error, herror⟩
      cases herror

/-- Detaching in the callback gives back the reference of the bus. -/
theorem Inv.entered_detach {u : World} (h : Inv w) (hu : Entered w u p) :
    ∃ x : SdBusSlot, slotDetach u p = u.setSlot p x ∧ x.refs + w.busRef p = (w.slots p).refs + 1 ∧
      (u.setSlot p x).busRef p = 0 := by
  have hrefs := h.refs p
  have hrefs' := hu.refs
  have hbus := hu.bus
  have hhandle : u.handleRef p = w.handleRef p := by rw [World.handleRef, hu.handles, World.handleRef]
  obtain ⟨x, he, -, hsum, hgone, -⟩ := slotDetach_extra (w := u) (p := p) (by omega)
  refine ⟨x, he, by omega, ?_⟩
  rw [World.busRef, World.setSlot_self, hgone]
  rfl

theorem Inv.installed_held (h : Inv w) {m : Message} (hc : (w.slots p).connected = true)
    (hopen : (∃ error, m.type = .methodError error) → (w.chans (w.heap p).chan).closed = false)
    (hno : ¬ LastRefused w p m) (hw : (processInstall w p m).world? = some w') : SameHolders w w' p := by
  obtain ⟨u, hu, hend⟩ := processInstall_enters hopen hw
  have hpos := h.alive p hc
  have hrefs' := hu.refs
  have hbus := hu.bus
  rcases hend with ⟨hm, rfl⟩ | ⟨-, rfl⟩
  · -- the reference of the bus goes, and it was not the last one
    have hlast : ¬ ((w.slots p).floating = true ∧ (w.slots p).refs = 1) :=
      fun hl => hno ⟨hm, hopen hm, hl.1, hl.2⟩
    obtain ⟨x, he, hsum, hzero⟩ := h.entered_detach hu
    have hself : (u.setSlot p x).slots p = x := World.setSlot_self _ _ _
    have hmore : 1 < ((u.setSlot p x).slots p).refs := by
      rw [hself]
      cases hf : (w.slots p).floating with
      | false =>
        have hnone : w.busRef p = 0 := by rw [World.busRef, hf]; rfl
        omega
      | true =>
        have hone : w.busRef p = 1 := by rw [World.busRef, hf, hc]; rfl
        have : (w.slots p).refs ≠ 1 := fun h1 => hlast ⟨hf, h1⟩
        omega
    obtain ⟨hunref, hbus'⟩ := slotUnref_held hmore
    rw [hself] at hunref
    rw [he]
    exact ⟨(slotUnref_handles _ p).trans hu.handles, by omega⟩
  · obtain ⟨hunref, hbus'⟩ := slotUnref_held (w := u) (p := p) (by omega)
    exact ⟨(slotUnref_handles u p).trans hu.handles, by omega⟩

/-- A refused match that only the bus was holding is gone. -/
theorem Inv.installed_out (h : Inv w) {m : Message} (hc : (w.slots p).connected = true) (hl : LastRefused w p m)
    (hw : (processInstall w p m).world? = some w') : p ∉ outstanding w'.log := by
  obtain ⟨u, hu, hend⟩ := processInstall_enters (fun _ => hl.opened) hw
  obtain ⟨-, rfl⟩ := hend.resolve_right fun hno => hno.1 hl.refused
  have hone : w.busRef p = 1 := by rw [World.busRef, hl.floating, hc]; rfl
  have hlast := hl.last
  obtain ⟨x, he, hsum, -⟩ := h.entered_detach hu
  have hfree : ((u.setSlot p x).slots p).refs ≤ 1 := by
    rw [World.setSlot_self]
    omega
  rw [he, slotUnref_last hfree, outstanding_slotFree]
  have hnodup : (outstanding (u.setSlot p x).log).Nodup := by
    show (outstanding u.log).Nodup
    rw [hu.outstanding]
    exact h.repr.nodup
  exact hnodup.not_mem_erase

/-! ### The invariant -/

/-- A queued record has a slot that the bus and the handle hold, and nobody else; the handle has let go
    only if it was finalized. -/
def View.counted (p : Ptr) (v : View) : Prop :=
  v.outstanding = true →
    v.slot.refs = (if v.handle.slot = some p then 1 else 0) + (v.slot.floating && v.slot.connected).toNat ∧
      (v.handle.finalized = false → v.handle.slot = some p)

structure Tended (w : World) : Prop where
  inv : Inv w
  counted : ∀ x, (w.view x).counted x
  shut : w.conn.bus = false → outstanding w.log = []

theorem Tended.init : Tended initial where
  inv := Inv.init
  counted x hx := by
    have hnone : (initial.view x).outstanding = false := rfl
    rw [hnone] at hx
    cases hx
  shut _ := rfl

theorem Inv.empty (h : Inv w) (hnone : outstanding w.log = []) : w.conn.queue = none := by
  by_contra hne
  exact h.repr.ne_nil_iff.mpr hne hnone

theorem Orderly.stepOk {s : Step} (h : Tended w) (hok : Orderly w s) (hs : step w s = some w') : StepOk w s := by
  cases s with
  | reply p m => exact .inl hok.1
  | installed p m => exact fun hl => .inl (hok hl.refused).1
  | cancel p => exact hok.1
  | gcHandle p => exact hok
  | busDrop p =>
    obtain ⟨⟨hbus, -⟩, -⟩ := Option.ite_none_right_eq_some.mp hs
    exact fun _ _ => .inr (.inl (h.inv.empty (h.shut hbus)))
  | _ => trivial

/-- What has to be looked at when a step changes the view of record `p`. -/
def Tends (w : World) (p : Ptr) (v : View) : Prop :=
  v.counted p ∧ (w.conn.bus = false → v.outstanding = false)

theorem tends_out {v : View} (ho : v.outstanding = false) : Tends w p v :=
  ⟨fun hv => absurd (ho.symm.trans hv) Bool.false_ne_true, fun _ => ho⟩

theorem view_out (ho : p ∉ outstanding w.log) : (w.view p).outstanding = false := decide_eq_false ho

theorem Tended.self (h : Tended w) (p : Ptr) : Tends w p (w.view p) := by
  refine ⟨h.counted p, fun hb => view_out ?_⟩
  rw [h.shut hb]
  exact List.not_mem_nil

/-- Who refers to the handle makes no difference. -/
theorem Tends.ref {v : View} (h : Tends w p v) (r : Ref) :
    Tends w p { v with handle := { v.handle with ref := r } } := h

theorem Tended.started (h : Tended w) {c : ChanId} {kind : Kind} {rv : ℤ} (hb : rv < 0 ∨ w.conn.bus = true)
    (hs : Started w w' c kind rv) : Tends w w.nextPtr (w'.view w.nextPtr) := by
  rcases hs.subject with ⟨hrv, hv, -⟩ | ⟨-, hv, -⟩
  · rw [hv]
    refine ⟨fun _ => ⟨?_, fun _ => rfl⟩, fun hbus => ?_⟩
    · rw [startView, if_pos rfl]
      rfl
    · rcases hb with hb | hb
      · exact absurd hb hrv
      · exact absurd (hbus.symm.trans hb) Bool.false_ne_true
  · rw [hv]
    exact tends_out (view_out h.inv.nextPtr_notMem)

/-- A match that stays queued is held as before. -/
theorem Tended.same (h : Tended w) (hbus : w.conn.bus = true) (hheld : SameHolders w w' p)
    (hout : p ∈ outstanding w'.log → p ∈ outstanding w.log) : Tends w p (w'.view p) := by
  obtain ⟨hhandles, hrefs⟩ := hheld
  refine ⟨fun hv => ?_, fun hb => absurd (hb.symm.trans hbus) Bool.false_ne_true⟩
  obtain ⟨hcount, hslot⟩ := h.counted p (decide_eq_true (hout (of_decide_eq_true hv)))
  have hcount' : (w.slots p).refs = (if (w.handles p).slot = some p then 1 else 0) + w.busRef p := hcount
  constructor
  · show (w'.slots p).refs = (if (w'.handles p).slot = some p then 1 else 0) + w'.busRef p
    rw [hhandles]
    omega
  · show (w'.handles p).finalized = false → (w'.handles p).slot = some p
    rw [hhandles]
    exact hslot

/-- Who holds the slot of a queued record. -/
theorem Tended.queued_held (h : Tended w) (hfinal : (w.handles p).finalized = false) (hp : p ∈ outstanding w.log) :
    (w.handles p).slot = some p ∧ (w.slots p).refs = 1 + w.busRef p := by
  obtain ⟨hcount, hslot⟩ := h.counted p (decide_eq_true hp)
  have hslot : (w.handles p).slot = some p := hslot hfinal
  have hcount : (w.slots p).refs = (if (w.handles p).slot = some p then 1 else 0) + w.busRef p := hcount
  rw [if_pos hslot] at hcount
  exact ⟨hslot, hcount⟩

/-- A finalized handle lets go of its slot. Its record stays if it was queued and the bus holds the
    slot too. -/
theorem Tended.finalize_more (h : Tended w) (hfinal : (w.handles p).finalized = false) (hmore : 1 < (w.slots p).refs) :
    outstanding (releaseHandle w p).log = outstanding w.log ∧
      View.counted p { (releaseHandle w p).view p with
        handle := { (releaseHandle w p).handles p with finalized := true } } := by
  by_cases hp : p ∈ outstanding w.log
  · obtain ⟨hslot, hcount⟩ := h.queued_held hfinal hp
    have he := releaseHandle_eq hslot
    rw [slotUnref_more (w := w.setHandle p _) hmore] at he
    refine ⟨by rw [he]; rfl, fun _ => ⟨?_, fun hf => by cases hf⟩⟩
    have hgone : ((releaseHandle w p).handles p).slot ≠ some p := by
      rw [releaseHandle_slot]
      exact Option.some_ne_none p ∘ Eq.symm
    show ((releaseHandle w p).slots p).refs =
      (if ((releaseHandle w p).handles p).slot = some p then 1 else 0) + (releaseHandle w p).busRef p
    rw [if_neg hgone, World.busRef, he, World.setSlot_self]
    show (w.slots p).refs - 1 = 0 + w.busRef p
    omega
  · have hsame : outstanding (releaseHandle w p).log = outstanding w.log := by
      rcases h.inv.outstanding_release p with hsame | herase
      · exact hsame
      · rw [herase, List.erase_of_not_mem hp]
    refine ⟨hsame, fun hv => absurd (of_decide_eq_true hv) ?_⟩
    rw [hsame]
    exact hp

/-- ... and goes with the last reference. -/
theorem Tended.finalize_last (h : Tended w) (hfinal : (w.handles p).finalized = false) (hlast : (w.slots p).refs ≤ 1) :
    p ∉ outstanding (releaseHandle w p).log := by
  by_cases hp : p ∈ outstanding w.log
  · obtain ⟨hslot, -⟩ := h.queued_held hfinal hp
    rw [releaseHandle_eq hslot, slotUnref_last (w := w.setHandle p _) hlast, outstanding_slotFree]
    exact h.inv.repr.nodup.not_mem_erase
  · rcases h.inv.outstanding_release p with hsame | herase
    · rwa [hsame]
    · rwa [herase, List.erase_of_not_mem hp]

/-- A cancelled record is not queued any more. -/
theorem Tended.cancel_out (h : Tended w) (hfinal : (w.handles p).finalized = false) (hquiet : Quiet w w₁ p)
    (hout : (w.handles p).slot = some p → (w.slots p).refs ≤ w.busRef p + 1 → p ∉ outstanding w₁.log) :
    p ∉ outstanding w₁.log := by
  obtain ⟨es, f, hes⟩ := hquiet
  intro hp
  have hp' : p ∈ outstanding w.log := by
    rw [f.log] at hp
    exact (outstanding_quiet hes).2 hp
  obtain ⟨hslot, hcount⟩ := h.queued_held hfinal hp'
  exact hout hslot (by omega) hp

theorem Tended.subject (h : Tended w) {s : Step} (hok : Orderly w s) (he : Effect w s w') (hs : step w s = some w')
    (hsw : s.sweeps = false) (hp : s.subject w = some p) : Tends w p (w'.view p) := by
  cases he with
  | callAsync _ hb h' =>
    obtain rfl := (Option.some.inj hp).symm
    exact h.started hb h'
  | matchAsync _ hb h' =>
    obtain rfl := (Option.some.inj hp).symm
    exact h.started hb h'
  | returned es _ _ hes =>
    obtain rfl := (Option.some.inj hp).symm
    rw [view_setHandle_self, view_returned hes]
    exact (h.self _).ref .user
  | reply _ _ _ _ hout =>
    obtain rfl := (Option.some.inj hp).symm
    exact tends_out (view_out hout)
  | matched hc _ hsame =>
    obtain rfl := (Option.some.inj hp).symm
    obtain ⟨hbus, hconn, hk, -⟩ := World.callable_spec hc
    obtain ⟨-, hs⟩ := Option.ite_none_right_eq_some.mp hs
    exact h.same hbus (h.inv.matched_held hk hconn hok.2.1 hs) (hsame ▸ id)
  | @installed _ m _ hc _ hsame =>
    obtain rfl := (Option.some.inj hp).symm
    obtain ⟨hbus, hconn, -, -⟩ := World.callable_spec hc
    obtain ⟨-, hs⟩ := Option.ite_none_right_eq_some.mp hs
    by_cases hl : LastRefused w p m
    · exact tends_out (view_out (h.inv.installed_out hconn hl hs))
    · exact h.same hbus (h.inv.installed_held hconn (fun hm => (hok hm).2.1) hl hs) ((hsame hl) ▸ id)
  | cancel w₁ _ _ hquiet hout =>
    obtain rfl := (Option.some.inj hp).symm
    exact tends_out (view_out (show p ∉ outstanding w₁.log from h.cancel_out hok.2 hquiet hout))
  | dropHandle _ =>
    obtain rfl := (Option.some.inj hp).symm
    rw [view_setHandle_self]
    exact (h.self _).ref .dropped
  | gcHandle w₁ _ _ hfinal hquiet hw₁ =>
    obtain rfl := (Option.some.inj hp).symm
    rw [view_setHandle_self, hw₁]
    by_cases hlast : (w.slots p).refs ≤ 1
    · exact tends_out (view_out (h.finalize_last hfinal hlast))
    · obtain ⟨hsame, hcounted⟩ := h.finalize_more hfinal (Nat.lt_of_not_le hlast)
      refine ⟨hcounted, fun hb => view_out ?_⟩
      rw [hsame, h.shut hb]
      exact List.not_mem_nil
  | busDrop _ hb hquiet =>
    obtain rfl := (Option.some.inj hp).symm
    refine tends_out (view_out fun hp => ?_)
    obtain ⟨es, f, hes⟩ := hquiet
    rw [f.log] at hp
    have hp' := (outstanding_quiet hes).2 hp
    rw [h.shut hb] at hp'
    cases hp'
  | dropChan => cases hp
  | closeChan => cases hp
  | gcChan _ => cases hp
  | hup => cases hsw
  | err => cases hsw
  | closeBus => cases hsw

theorem Outcome.Ends.done {P : World → Prop} {o : Outcome} (h : o.Ends P fun _ => False) (hw : o.world? = some w') :
    o = .done w' := by
  cases o with
  | done w₁ =>
    obtain rfl := Option.some.inj hw
    rfl
  | raised w₁ e => exact absurd h id
  | diverged => cases hw

theorem Outcome.Ends.returned {P : World → Prop} {o : Outcome} (h : o.Ends P fun _ => False) (hw : o.world? = some w') :
    P w' := by
  have hdone := h.done hw
  rw [hdone] at h
  exact h

theorem Inv.queued_open (h : Inv w) (hok : ∀ p ∈ w.queued, w.opened p ∧ Sweepable w p) :
    ∀ p ∈ outstanding w.log, w.opened p :=
  fun p hp => (hok p (h.queued_eq ▸ hp)).1

/-- A step that sweeps the queue shuts everything. -/
theorem Tended.shuts (h : Tended w) {s : Step} (hok : Orderly w s) (he : Effect w s w') (hsw : s.sweeps = true) :
    ∃ tuple, asks w s = [.shut tuple] ∧ Shut w tuple w' := by
  cases he with
  | hup _ hw => exact ⟨_, rfl, (busCallback_shut .hup h.inv (h.inv.queued_open hok)).returned hw⟩
  | err _ hw => exact ⟨_, rfl, (busCallback_shut .err h.inv (h.inv.queued_open hok)).returned hw⟩
  | closeBus hw => exact ⟨_, rfl, (cfunCloseBus_shut h.inv hok.1 (h.inv.queued_open hok.2)).returned hw⟩
  | _ => cases hsw

theorem Tended.callback_intact (h : Tended w) (ev : AsyncEvent) (hok : ∀ p ∈ w.queued, w.opened p ∧ Sweepable w p)
    (hw : (busCallback w ev).world? = some w') : faults w'.log = faults w.log := by
  have hdone := (busCallback_shut ev h.inv (h.inv.queued_open hok)).done hw
  have hiff := busCallback_faults h.inv ev
  rw [hdone] at hiff
  exact hiff.mpr fun p hp => (hok p hp).2

/-- It touches nothing that is gone. -/
theorem Tended.intact (h : Tended w) {s : Step} (hok : Orderly w s) (hs : Async.step w s = some w') :
    SweepIntact w s w' := by
  intro hsw
  cases step_effect h.inv hs with
  | hup _ hw => exact h.callback_intact .hup hok hw
  | err _ hw => exact h.callback_intact .err hok hw
  | closeBus hw =>
    cases hl : w.listening with
    | true =>
      have hdone := (cfunCloseBus_shut h.inv hok.1 (h.inv.queued_open hok.2)).done hw
      have hiff := cfunCloseBus_faults h.inv hl
      rw [hdone] at hiff
      exact hiff.mpr fun p hp => (hok.2 p hp).2
    | false =>
      obtain ⟨-, -, hsame⟩ := cfunCloseBus_deaf hl hw
      rw [hsame]
  | _ => cases hsw

theorem Tended.step {s : Step} (h : Tended w) (hok : Orderly w s) (hs : step w s = some w') : Tended w' := by
  have he := step_effect h.inv hs
  have hinv := h.inv.step (hok.stepOk h hs) hs
  cases hsw : s.sweeps with
  | true =>
    obtain ⟨tuple, -, hshut⟩ := h.shuts hok he hsw
    refine ⟨hinv, fun x => (tends_out (w := w) (view_out ?_)).1, fun _ => hshut.empty⟩
    rw [hshut.empty]
    exact List.not_mem_nil
  | false =>
    have htends : ∀ x, Tends w x (w'.view x) := by
      intro x
      by_cases hx : s.subject w = some x
      · exact h.subject hok he hs hsw hx
      · rw [he.others hsw hx]
        exact h.self x
    refine ⟨hinv, fun x => (htends x).1, fun hb => List.eq_nil_iff_forall_not_mem.mpr fun x => ?_⟩
    exact of_decide_eq_false ((htends x).2 ((he.conn hsw).1.symm.trans hb))

/-! ### Simulation -/

theorem answer_pending (hp : p ∈ w.queued) :
    w.mailbox.answer p tuple = some { w.mailbox with sent := w.mailbox.sent ++ [(p, (w.heap p).chan, tuple)] } := by
  rw [Schemes.Mailbox.State.answer, World.mailbox, List.lookup_graph _ hp]
  rfl

theorem Gave.mild {src : Source} (q₁ : ∀ e ∈ es, e.quiet p = true) (q₂ : ∀ e ∈ l, e.quiet p = true) :
    ∀ e ∈ l ++ (w.giveLog src p tuple ++ es), e.quiet p = true ∨ e.plain = true := by
  intro e he
  rcases List.mem_append.mp he with he | he
  · exact .inl (q₂ e he)
  rcases List.mem_append.mp he with he | he
  · rw [World.giveLog] at he
    split at he
    · exact .inr (chanFault_plain w p e he)
    · rcases List.mem_cons.mp he with rfl | he
      · exact .inr rfl
      · exact .inr (chanFault_plain w p e he)
  · exact .inl (q₁ e he)

theorem answers_gave {src : Source} (q₁ : ∀ e ∈ es, e.quiet p = true) (q₂ : ∀ e ∈ l, e.quiet p = true)
    (hopen : (w.chans (w.heap p).chan).closed = false) :
    answers (l ++ (w.giveLog src p tuple ++ es)) = [(p, (w.heap p).chan, tuple)] := by
  rw [answers_append, answers_append, answers_quiet q₁, answers_quiet q₂, answers_giveLog hopen]
  rfl

theorem Inv.tells (h : Inv w) (h' : Inv w') {src : Source} (hg : Gave w w' src p tuple) (hp : p ∈ w.queued)
    (hopen : (w.chans (w.heap p).chan).closed = false) (hsame : outstanding w'.log = outstanding w.log) :
    exec Schemes.Mailbox.step w.mailbox [.tell p tuple] = some w'.mailbox := by
  obtain ⟨es₁, es₂, f, q₁, q₂⟩ := hg
  rw [exec, Schemes.Mailbox.step, answer_pending hp, h.mailbox_kept h' f hsame, answers_gave q₁ q₂ hopen]
  rfl

theorem Inv.finishes (h : Inv w) (h' : Inv w') {src : Source} (hg : Gave w w' src p tuple) (hp : p ∈ w.queued)
    (hopen : (w.chans (w.heap p).chan).closed = false) (hgone : p ∉ outstanding w'.log) :
    exec Schemes.Mailbox.step w.mailbox [.finish p tuple] = some w'.mailbox := by
  obtain ⟨es₁, es₂, f, q₁, q₂⟩ := hg
  rw [exec, Schemes.Mailbox.step, answer_pending hp, h.mailbox_gone h' f (Gave.mild q₁ q₂) hgone,
    answers_gave q₁ q₂ hopen]
  rfl

theorem Inv.stays (h : Inv w) (h' : Inv w') (hq : Quiet w w' p) (hsame : outstanding w'.log = outstanding w.log) :
    w'.mailbox = w.mailbox := by
  obtain ⟨es, f, hes⟩ := hq
  rw [h.mailbox_kept h' f hsame, answers_quiet hes, List.append_nil]

theorem Inv.drops (h : Inv w) (h' : Inv w') (f : Frame w w' p es)
    (hes : ∀ e ∈ es, e.quiet p = true ∨ e = .cancelled p) (hgone : p ∉ outstanding w'.log) :
    exec Schemes.Mailbox.step w.mailbox [.drop p] = some w'.mailbox := by
  have hmild : ∀ e ∈ es, e.quiet p = true ∨ e.plain = true := by
    intro e he
    rcases hes e he with hq | rfl
    · exact .inl hq
    · exact .inr rfl
  have hsilent : answers es = [] := by
    refine answers_nil fun e he => ?_
    rcases hes e he with hq | rfl
    · exact answer_quiet hq
    · rfl
  rw [exec, Schemes.Mailbox.step, h.mailbox_gone h' f hmild hgone, hsilent, List.append_nil]
  rfl

theorem Inv.starts (h : Inv w) (h' : Inv w') {c : ChanId} {kind : Kind} {rv : ℤ}
    (hs : (startAsync w c kind rv).world? = some w') :
    exec Schemes.Mailbox.step w.mailbox (if rv < 0 then [] else [.start w.nextPtr c]) = some w'.mailbox := by
  have hstarted := (startAsync_started h c kind rv).world hs
  have hnew := h.nextPtr_notMem
  have hchan : ((outstanding w.log).map fun p => (p, (w'.heap p).chan)) =
      (outstanding w.log).map fun p => (p, (w.heap p).chan) := by
    refine List.map_congr_left fun p hp => ?_
    have hview := hstarted.others p fun hpn => hnew (hpn ▸ hp)
    rw [show (w'.heap p).chan = (w.heap p).chan from congrArg View.chan hview]
  by_cases hrv : rv < 0
  · have hlog : w'.log = w.log := by
      simp only [startAsync, hrv, if_true, Outcome.world?, Option.some.injEq] at hs
      rw [← hs]
      rfl
    rw [if_pos hrv, exec, h'.mailbox_eq, h.mailbox_eq, hlog, hchan]
  · have hc : (w'.heap w.nextPtr).chan = c := by
      rcases hstarted.subject with ⟨-, hv, -⟩ | ⟨hno, -, -⟩
      · exact congrArg View.chan hv
      · exact absurd hno hrv
    have hlog : ∃ ps : List Ptr, w'.log = .queued w.nextPtr :: ((startState w c kind).freedOf .queue ps ++ w.log) := by
      have hqueue : (startState w c kind).conn.queue ≠ some w.nextPtr := by
        rw [startState_eq]
        intro hq
        exact hnew (List.mem_of_mem_head? (h.repr.head_eq.symm.trans hq))
      rw [startAsync_accepted hrv] at hs
      obtain rfl := Option.some.inj hs
      have hstart : (startState w c kind).log = w.log := by rw [startState_eq]
      have hlog := (queuePending_frame (startState w c kind) w.nextPtr hqueue).log
      rw [hstart] at hlog
      exact ⟨_, congrArg (Event.queued w.nextPtr :: ·) hlog⟩
    obtain ⟨ps, hlog⟩ := hlog
    have hsent : answers w'.log = answers w.log := by
      obtain ⟨es, hes, hevents⟩ := hstarted.log
      rw [hes]
      refine answers_silent fun e he => ?_
      rcases hevents e he with rfl | ⟨q, rfl⟩
      · rfl
      · rfl
    have hkeys : w.nextPtr ∉ w.mailbox.keys := by
      rw [h.mailbox_eq, Schemes.Mailbox.State.keys, List.map_map]
      simpa using hnew
    have hpending : outstanding w'.log = w.nextPtr :: outstanding w.log := by
      rw [hlog, outstanding, outstanding_freedOf]
    rw [if_neg hrv, exec, Schemes.Mailbox.step, if_neg hkeys, h'.mailbox_eq, h.mailbox_eq, hpending, List.map_cons,
      hchan, hc, hsent]
    rfl

/-- A message about a rule is told, unless it is of no known type. -/
theorem Inv.carries (h : Inv w) (h' : Inv w') {m : Message} (hc : w.callable p .Match = true)
    (hp : p ∈ w.queued) (hopen : w.opened p) (hsame : outstanding w'.log = outstanding w.log)
    (hs : (processMatch w p m).world? = some w') :
    exec Schemes.Mailbox.step w.mailbox (asks w (.matched p m)) = some w'.mailbox := by
  obtain ⟨-, -, hk, -⟩ := World.callable_spec hc
  rw [asks]
  split
  · next hm =>
    obtain ⟨w₁, he, hq⟩ := processMatch_other (w := w) (p := p) hm
    rw [he] at hs
    obtain rfl := Option.some.inj hs
    rw [exec, h.stays h' hq hsame]
  · next hm =>
    have hg := (processMatch_gave hm).gave hs
    rw [hk] at hg
    exact h.tells h' hg hp hopen hsame

/-- The answer to a new rule: only a refusal is told, and it ends the record if nothing else holds it. -/
theorem Inv.installs (h : Inv w) (h' : Inv w') {m : Message} (hc : w.callable p .Match = true)
    (hok : (∃ error, m.type = .methodError error) → p ∈ w.queued ∧ w.takes p)
    (hsame : ¬ LastRefused w p m → outstanding w'.log = outstanding w.log)
    (hs : (processInstall w p m).world? = some w') :
    exec Schemes.Mailbox.step w.mailbox (asks w (.installed p m)) = some w'.mailbox := by
  obtain ⟨-, hconn, -, -⟩ := World.callable_spec hc
  by_cases hm : ∃ error, m.type = .methodError error
  · obtain ⟨hp, hopen, -⟩ := hok hm
    obtain ⟨error, herror⟩ := hm
    have hg := (processInstall_refused herror).gave hs
    simp only [asks, herror]
    split
    · next hl =>
      have hgone := h.installed_out hconn ⟨⟨error, herror⟩, hopen, hl.1, hl.2⟩ hs
      exact h.finishes h' hg hp hopen hgone
    · next hno => exact h.tells h' hg hp hopen (hsame fun hl => hno ⟨hl.floating, hl.last⟩)
  · obtain ⟨w₁, he, hq⟩ := processInstall_accepted (w := w) (p := p) (not_exists.mp hm)
    rw [he] at hs
    obtain rfl := Option.some.inj hs
    have hasks : asks w (.installed p m) = [] := by
      rw [asks]
      split
      · next error herror => exact absurd ⟨error, herror⟩ hm
      · rfl
    rw [hasks, exec, h.stays h' hq (hsame fun hl => hm hl.refused)]

/-- The collector drops a record whose handle holds the last reference. -/
theorem Tended.collects (h : Tended w) (hok : Orderly w (.gcHandle p))
    (hfinal : (w.handles p).finalized = false) (hquiet : Quiet w w₁ p) (hw₁ : w₁ = releaseHandle w p) :
    exec Schemes.Mailbox.step w.mailbox (asks w (.gcHandle p)) = some w₁.mailbox := by
  have h₁ : Inv w₁ := by
    rw [hw₁]
    exact h.inv.release fun hs hr => h.inv.unlink (hok hs hr)
  rw [asks]
  split
  · next hlast =>
    have hgone := h.finalize_last hfinal hlast
    rw [← hw₁] at hgone
    obtain ⟨es, f, hes⟩ := hquiet
    exact h.inv.drops h₁ f (fun e he => .inl (hes e he)) hgone
  · next hmore =>
    have hsame := (h.finalize_more hfinal (Nat.lt_of_not_le hmore)).1
    rw [← hw₁] at hsame
    rw [exec, ← h.inv.stays h₁ hquiet hsame]

theorem Tended.simulates {s : Step} (h : Tended w) (hok : Orderly w s) (hs : Async.step w s = some w') :
    exec Schemes.Mailbox.step w.mailbox (asks w s) = some w'.mailbox := by
  have he := step_effect h.inv hs
  have h' := (h.step hok hs).inv
  cases he with
  | callAsync _ _ _ =>
    obtain ⟨-, hs⟩ := Option.ite_none_right_eq_some.mp hs
    exact h.inv.starts h' hs
  | matchAsync _ _ _ =>
    obtain ⟨-, hs⟩ := Option.ite_none_right_eq_some.mp hs
    exact h.inv.starts h' hs
  | @returned p es _ _ hes =>
    have hsilent : ∀ e ∈ es, e.answer = none := by
      intro e he
      rcases hes e he with ⟨rfl, -⟩ | rfl
      · rfl
      · rfl
    have hsent : answers (es ++ w.log) = answers w.log := answers_silent hsilent
    show some w.mailbox = some { w.mailbox with sent := answers (es ++ w.log) }
    rw [hsent]
    rfl
  | reply _ _ _ hg hout => exact h.inv.finishes h' hg hok.1 hok.2.1 hout
  | matched hc _ hsame =>
    obtain ⟨-, hs⟩ := Option.ite_none_right_eq_some.mp hs
    exact h.inv.carries h' hc hok.1 hok.2.1 hsame hs
  | installed hc _ hsame =>
    obtain ⟨-, hs⟩ := Option.ite_none_right_eq_some.mp hs
    exact h.inv.installs h' hc hok hsame hs
  | @cancel p w₁ _ _ hquiet hout =>
    have hgone := h.cancel_out hok.2 hquiet hout
    obtain ⟨es, f, hes⟩ := hquiet
    refine h.inv.drops h' (f.trans (Frame.logged w₁ p [.cancelled p])) (fun e he => ?_) hgone
    rcases List.mem_cons.mp he with rfl | he
    · exact .inr rfl
    · exact .inl (hes e he)
  | gcHandle w₁ _ _ hfinal hquiet hw₁ => exact (h.collects hok hfinal hquiet hw₁).trans rfl
  | @busDrop p _ _ hb hquiet =>
    have hnone := h.shut hb
    have hsame : outstanding w'.log = outstanding w.log := by
      rw [hnone, (h.step hok hs).shut]
      obtain ⟨es, f, -⟩ := hquiet
      exact f.bus.trans hb
    show some w.mailbox = some w'.mailbox
    rw [h.inv.stays h' hquiet hsame]
  | hup hl hw =>
    obtain ⟨tuple, hasks, hshut⟩ := h.shuts hok (.hup hl hw) rfl
    rw [hasks, hshut.mailbox h.inv h']
  | err hl hw =>
    obtain ⟨tuple, hasks, hshut⟩ := h.shuts hok (.err hl hw) rfl
    rw [hasks, hshut.mailbox h.inv h']
  | closeBus hw =>
    obtain ⟨tuple, hasks, hshut⟩ := h.shuts hok (.closeBus hw) rfl
    rw [hasks, hshut.mailbox h.inv h']
  | dropHandle _ => rfl
  | dropChan => rfl
  | closeChan => rfl
  | gcChan _ => rfl

/-! ### Runs -/

/-- In an orderly run the queue does what the mailbox is asked for: the same records are pending, the
    channels were given the same tuples in the same order, and each record was told what was meant for
    it while it was pending, and nothing else. What ends the connection touches nothing that is gone. -/
theorem run_mailboxes {steps : List Step} (hok : Meets step Orderly initial steps)
    (hrun : exec step initial steps = some w) :
    exec Schemes.Mailbox.step .empty (labels step asks initial steps) = some w.mailbox ∧
      (∀ p, w.mailbox.told p = Schemes.Mailbox.heard p false (labels step asks initial steps)) ∧
      Each step SweepIntact initial steps := by
  have hsim := hok.refines (fun _ _ _ h hok hs => h.step hok hs) (fun _ _ _ h hok hs => h.simulates hok hs)
    Tended.init hrun
  exact ⟨hsim, fun p => Schemes.Mailbox.exec_told (s := .empty) List.nodup_nil hsim,
    hok.each (fun _ _ _ h hok hs => h.step hok hs) (fun _ _ _ h hok hs => h.intact hok hs) Tended.init⟩

/-- A call that gets its reply, and a match that is told of a signal and then of the hang-up. -/
def mailboxRun : List Step :=
  [.callAsync 0 1, .matchAsync 1 1, .reply 0 { type := .methodReturn, replyCookie := some 1 },
    .matched 1 { type := .signal, replyCookie := none }, .hup]

theorem run_mailboxes_signal : ∃ w, exec step initial mailboxRun = some w ∧
    exec Schemes.Mailbox.step .empty (labels step asks initial mailboxRun) = some w.mailbox := by
  have after : ∀ (k : ℕ) (P : World → Prop) [DecidablePred P] {u : World},
      ((exec step initial (mailboxRun.take k)).all fun u => decide (P u)) = true →
        exec step initial (mailboxRun.take k) = some u → P u := by
    intro k P _ u h hu
    rw [hu] at h
    exact of_decide_eq_true h
  have hok : Meets step Orderly initial mailboxRun := by
    intro w₁ h₁
    refine ⟨trivial, fun w₂ h₂ => ⟨trivial, fun w₃ h₃ => ⟨?_, fun w₄ h₄ => ⟨?_, fun w₅ _ => ⟨?_, trivial⟩⟩⟩⟩⟩
    · refine after 2 (fun u => 0 ∈ u.queued ∧ u.takes 0) (by decide +kernel) ?_
      simp [mailboxRun, exec, h₁, h₂]
    · refine after 3 (fun u => 1 ∈ u.queued ∧ u.takes 1) (by decide +kernel) ?_
      simp [mailboxRun, exec, h₁, h₂, h₃]
    · refine after 4 (fun u => ∀ p ∈ u.queued, u.opened p ∧ Sweepable u p) (by decide +kernel) ?_
      simp [mailboxRun, exec, h₁, h₂, h₃, h₄]
  obtain ⟨w, hw⟩ : ∃ w, exec step initial mailboxRun = some w := Option.isSome_iff_exists.mp (by decide +kernel)
  exact ⟨w, hw, (run_mailboxes hok hw).1⟩

end JanetSdbus.Async
