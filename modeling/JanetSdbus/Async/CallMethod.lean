import JanetSdbus.Async.Aging

/-! `call-method`, and what it leaves behind.

    An invocation makes a channel, passes it to `call-async` and takes from it; `with` closes the
    channel on every way out. The record that `call-async` queued goes by other means: the handler
    takes it out of the queue and off the bus when the reply comes. `leaves_nothing` says that this
    covers the exits that wait for the reply. -/

namespace JanetSdbus.CallMethod
open Async Schemes.LinkedList Schemes.Run

/-- Where an invocation stands: inside `call-async`, suspended in `ev/take`, or it has exited. -/
inductive Phase where
  | calling (p : Ptr)
  | waiting (p : Ptr)
  | exited
  deriving DecidableEq

/-- The connection, and the invocations by their channels. -/
structure System where
  world : World
  calls : ChanId → Option Phase

inductive Move where
  /-- building the message, or appending to it, raises -/
  | refused (c : ChanId)
  | call (c : ChanId) (rv : ℤ)
  | returned (c : ChanId)
  /-- `settimeout` raises at the end of `call-async` -/
  | raised (c : ChanId)
  /-- `ev/take` returns a tuple -/
  | resumed (c : ChanId)
  /-- `ev/cancel` or a deadline ends the fiber in `ev/take` -/
  | cancelled (c : ChanId)
  /-- anything else on the connection -/
  | other (s : Step)

/-- No record has this channel. -/
def unused (w : World) (c : ChanId) : Bool := (List.range w.nextPtr).all fun p => (w.heap p).chan ≠ c

/-- The channels of the invocations are their own. -/
def System.allows (sys : System) : Step → Bool
  | .callAsync c _ | .matchAsync c _ | .closeChan c => sys.calls c = none
  | .dropChan c => sys.calls c = none ∨ sys.calls c = some .exited
  | .returned p => sys.calls (sys.world.heap p).chan = none
  | _ => true

def System.set (sys : System) (w : World) (c : ChanId) (phase : Phase) : System :=
  ⟨w, Function.update sys.calls c (some phase)⟩

def closeChan (w : World) (c : ChanId) : World :=
  { w with chans := Function.update w.chans c { w.chans c with closed := true } }

/-- `(:close ch)`, and out. -/
def System.leave (sys : System) (c : ChanId) : System := sys.set (closeChan sys.world c) c .exited

def Event.givesTo (c : ChanId) : Event → Bool
  | .wrote _ _ d _ => d = c
  | _ => false

def move (sys : System) : Move → Option System
  | .refused c =>
    if sys.calls c = none ∧ unused sys.world c then some (sys.set sys.world c .exited) else none
  | .call c rv =>
    if sys.calls c = none ∧ unused sys.world c ∧ (sys.world.chans c).closed = false then
      (step sys.world (.callAsync c rv)).map fun w =>
        if rv < 0 then sys.set (closeChan w c) c .exited
        else sys.set w c (.calling sys.world.nextPtr)
    else none
  | .returned c =>
    match sys.calls c with
    | some (.calling p) =>
      -- the value of `call-async` is not used
      (step sys.world (.returned p)).bind fun w =>
        (step w (.dropHandle p)).map fun w => sys.set w c (.waiting p)
    | _ => none
  | .raised c =>
    match sys.calls c with
    | some (.calling _) => some (sys.leave c)
    | _ => none
  | .resumed c =>
    match sys.calls c with
    | some (.waiting _) =>
      if sys.world.log.any (Event.givesTo c) then some (sys.leave c) else none
    | _ => none
  | .cancelled c =>
    match sys.calls c with
    | some (.waiting _) => some (sys.leave c)
    | _ => none
  | .other s =>
    if sys.allows s then (step sys.world s).map fun w => { sys with world := w } else none

/-- Before the first invocation. -/
def start : System := ⟨initial, fun _ => none⟩

/-! ### Nothing left behind -/

/-- The step may come to give a tuple to the channel of record `p`. -/
def gives (w : World) (p : Ptr) : Step → Prop
  | .reply q _ => q = p ∧ w.callable q .Call
  | .matched q _ | .installed q _ => q = p ∧ w.callable q .Match
  | .hup | .err | .closeBus => p ∈ w.queued
  | _ => False

/-- Once an invocation has exited, no record with its channel is in the queue or on the bus, and so
    nothing is going to be given to the channel. -/
def LeavesNothing (sys : System) : Prop :=
  ∀ c, sys.calls c = some .exited → ∀ p, p < sys.world.nextPtr → (sys.world.heap p).chan = c →
    p ∉ sys.world.queued ∧ (sys.world.slots p).connected = false ∧ ∀ s, ¬ gives sys.world p s

/-- Record `p` has been answered by the handler, or it has been freed. -/
def Over (w : World) (p : Ptr) : Prop := (∃ c t, .wrote .handler p c t ∈ w.log) ∨ w.freed p = true

/-- What a move has to meet: an invocation that has a record exits when that is over, and the queue
    is not damaged. -/
def MoveOk (sys : System) : Move → Prop
  | .raised c | .resumed c | .cancelled c =>
    ∀ p, sys.calls c = some (.calling p) ∨ sys.calls c = some (.waiting p) → Over sys.world p
  | .other s => StepOk sys.world s
  | _ => True

/-! ### The invariant -/

variable {w w' : World} {sys sys' : System} {c : ChanId} {p : Ptr}

/-- `p` is the only record with channel `c`. -/
structure Alone (w : World) (c : ChanId) (p : Ptr) : Prop where
  made : p < w.nextPtr
  chan : (w.heap p).chan = c
  kind : (w.heap p).kind = .Call
  only : ∀ q, q < w.nextPtr → (w.heap q).chan = c → q = p

/-- All records with channel `c` are gone. -/
def Cleared (w : World) (c : ChanId) : Prop := ∀ q, q < w.nextPtr → (w.heap q).chan = c → (w.view q).gone

/-- What a phase promises about the records of the channel. -/
def Phase.Holds (w : World) (c : ChanId) : Phase → Prop
  | .calling p | .waiting p => Alone w c p
  | .exited => Cleared w c

structure Tidy (sys : System) : Prop where
  sound : Sound sys.world
  settled : Settled sys.world
  phases : ∀ c phase, sys.calls c = some phase → phase.Holds sys.world c

theorem Tidy.start : Tidy start := ⟨Sound.init, Settled.init, fun _ _ h => absurd h (by simp [CallMethod.start])⟩

theorem view_gone (h : (w.view p).gone) (hi : Inv w) : p ∉ w.queued ∧ (w.slots p).connected = false := by
  rw [hi.queued_eq]
  exact ⟨of_decide_eq_false h.1, h.2⟩

theorem Tidy.leavesNothing (h : Tidy sys) : LeavesNothing sys := by
  intro c hc p hp hchan
  obtain ⟨hq, hconn⟩ := view_gone (h.phases c .exited hc p hp hchan) h.sound.inv
  refine ⟨hq, hconn, fun s hs => ?_⟩
  have hnot : ∀ kind, ¬ sys.world.callable p kind = true := by
    intro kind hcall
    have := (World.callable_spec hcall).2.1
    rw [hconn] at this
    exact absurd this (by simp)
  cases s with
  | reply q m => obtain ⟨rfl, hcall⟩ := hs; exact hnot _ hcall
  | matched q m => obtain ⟨rfl, hcall⟩ := hs; exact hnot _ hcall
  | installed q m => obtain ⟨rfl, hcall⟩ := hs; exact hnot _ hcall
  | hup | err | closeBus => exact hq hs
  | _ => exact hs

/-! ### One step of the connection -/

theorem unused_iff : unused w c = true ↔ ∀ q, q < w.nextPtr → (w.heap q).chan ≠ c := by
  simp [unused]

/-- A channel that a step makes no record on keeps what its phase promises. -/
theorem holds_step {s : Step} {phase : Phase} (h : Sound w) (hs : step w s = some w')
    (hnew : ∀ d kind, s.makes = some (d, kind) → d ≠ c) (hp : phase.Holds w c) : phase.Holds w' c := by
  obtain ⟨haged, hle⟩ := step_aged h hs
  have hold : ∀ q, q < w'.nextPtr → (w'.heap q).chan = c → q < w.nextPtr ∧ (w.heap q).chan = c := by
    intro q hq hchan
    by_cases hlt : q < w.nextPtr
    · exact ⟨hlt, (haged q hlt).chan.symm.trans hchan⟩
    · obtain ⟨_, d, kind, hmakes, hd, _⟩ := step_new h hs (Nat.not_lt.mp hlt) hq
      exact absurd (hd.symm.trans hchan) (hnew d kind hmakes)
  have halone : ∀ p, Alone w c p → Alone w' c p := fun p ha =>
    ⟨Nat.lt_of_lt_of_le ha.made hle, (haged p ha.made).chan.trans ha.chan,
      (haged p ha.made).kind.trans ha.kind, fun q hq hchan => ha.only q (hold q hq hchan).1 (hold q hq hchan).2⟩
  cases phase with
  | calling p => exact halone p hp
  | waiting p => exact halone p hp
  | exited =>
    intro q hq hchan
    obtain ⟨hlt, hchan'⟩ := hold q hq hchan
    exact (hp q hlt hchan').aged (haged q hlt)

theorem Tidy.step {s : Step} (h : Tidy sys) (hok : StepOk sys.world s) (hs : step sys.world s = some w')
    (hnew : ∀ d kind, s.makes = some (d, kind) → sys.calls d = none) : Tidy { sys with world := w' } where
  sound := h.sound.step hok hs
  settled := h.settled.step h.sound hs
  phases c phase hc := by
    refine holds_step h.sound hs (fun d kind hm => ?_) (h.phases c phase hc)
    rintro rfl
    have hnone := hnew d kind hm
    rw [show sys.calls d = some phase from hc] at hnone
    exact absurd hnone (by simp)

/-- A new phase for a channel. -/
theorem Tidy.set (phase : Phase) (h : Tidy sys) (hp : phase.Holds sys.world c) :
    Tidy (sys.set sys.world c phase) where
  sound := h.sound
  settled := h.settled
  phases d phase' hd := by
    by_cases hdc : d = c
    · subst hdc
      have : some phase = some phase' := by simpa [System.set] using hd
      obtain rfl := Option.some.inj this
      exact hp
    · exact h.phases d phase' (by simpa [System.set, hdc] using hd)

theorem holds_closeChan {d : ChanId} {phase : Phase} (h : phase.Holds w d) : phase.Holds (closeChan w c) d := by
  cases phase with
  | calling p | waiting p => exact ⟨h.made, h.chan, h.kind, h.only⟩
  | exited => exact h

/-- Closing a channel does nothing to the records. -/
theorem Tidy.close (h : Tidy sys) (c : ChanId) : Tidy { sys with world := closeChan sys.world c } where
  sound := ⟨h.sound.inv.setChans _, h.sound.fresh⟩
  settled := h.settled
  phases d phase hd := holds_closeChan (h.phases d phase hd)

/-- An answered or freed record is gone. -/
theorem Over.gone (h : Over w p) (hset : Settled w) (hi : Inv w) (hlt : p < w.nextPtr)
    (hk : (w.heap p).kind = .Call) : (w.view p).gone := by
  rcases h with ⟨c, t, ht⟩ | hf
  · exact hset p hlt hk c t ht
  · have hrefs := (hi.gone p hlt).mp hf
    refine ⟨decide_eq_false fun hp => ?_, ?_⟩
    · rw [(hi.live p hp).2] at hf
      exact absurd hf (by simp)
    · by_contra hc
      have halive := hi.alive p (Bool.of_not_eq_false hc)
      omega

theorem Tidy.leave (h : Tidy sys) {phase : Phase} (hc : sys.calls c = some phase)
    (hphase : phase = .calling p ∨ phase = .waiting p) (hover : Over sys.world p) : Tidy (sys.leave c) := by
  have halone : Alone sys.world c p := by
    have := h.phases c phase hc
    rcases hphase with rfl | rfl <;> exact this
  have hgone := hover.gone h.settled h.sound.inv halone.made halone.kind
  refine (h.close c).set .exited fun q hq hchan => ?_
  rw [halone.only q hq hchan]
  exact hgone

/-! ### Runs -/

theorem Tidy.call {rv : ℤ} (h : Tidy sys) (hfree : sys.calls c = none) (hunused : unused sys.world c = true)
    (hs : Async.step sys.world (.callAsync c rv) = some w') :
    Tidy (if rv < 0 then sys.set (closeChan w' c) c .exited else sys.set w' c (.calling sys.world.nextPtr)) := by
  have htidy := h.step (s := .callAsync c rv) trivial hs fun d kind hm => by
    obtain ⟨rfl, _⟩ := Prod.mk.inj (Option.some.inj hm)
    exact hfree
  have he := step_effect h.sound.inv hs
  obtain ⟨haged, _⟩ := step_aged h.sound hs
  cases he with
  | callAsync _ _ hst =>
    -- the new record is the only one with this channel
    have honly : ∀ q, q < w'.nextPtr → (w'.heap q).chan = c → q = sys.world.nextPtr := by
      intro q hq hchan
      by_cases hlt : q < sys.world.nextPtr
      · exact absurd ((haged q hlt).chan.symm.trans hchan) (unused_iff.mp hunused q hlt)
      · exact (step_new h.sound hs (Nat.not_lt.mp hlt) hq).1
    have hmade : sys.world.nextPtr < w'.nextPtr := by rw [hst.nextPtr]; exact Nat.lt_succ_self _
    rcases hst.subject with ⟨hrv, hv, _⟩ | ⟨hrv, hv, _⟩
    · rw [if_neg hrv]
      exact htidy.set (.calling _) ⟨hmade, congrArg View.chan hv, congrArg View.kind hv, honly⟩
    · rw [if_pos hrv]
      refine (htidy.close c).set .exited fun q hq hchan => ?_
      rw [honly q hq hchan]
      have hview : (closeChan w' c).view sys.world.nextPtr = w'.view sys.world.nextPtr := rfl
      have hrefs := h.sound.inv.fresh _ (Nat.le_refl _)
      rw [hview, hv]
      refine ⟨decide_eq_false h.sound.inv.nextPtr_notMem, ?_⟩
      by_contra hc
      have halive := h.sound.inv.alive sys.world.nextPtr (Bool.of_not_eq_false hc)
      omega

theorem Tidy.move {m : Move} (h : Tidy sys) (hok : MoveOk sys m) (hm : move sys m = some sys') : Tidy sys' := by
  cases m with
  | refused c =>
    simp only [CallMethod.move, Option.ite_none_right_eq_some, Option.some.injEq] at hm
    obtain ⟨⟨_, hunused⟩, rfl⟩ := hm
    exact h.set .exited fun q hq hchan => absurd hchan (unused_iff.mp hunused q hq)
  | call c rv =>
    simp only [CallMethod.move, Option.ite_none_right_eq_some] at hm
    obtain ⟨⟨hfree, hunused, _⟩, hm⟩ := hm
    obtain ⟨w', hs, rfl⟩ := Option.map_eq_some_iff.mp hm
    exact h.call hfree hunused hs
  | returned c =>
    rw [CallMethod.move] at hm
    split at hm
    · next p hc =>
      obtain ⟨w₁, hs₁, hm⟩ := Option.bind_eq_some_iff.mp hm
      obtain ⟨w₂, hs₂, rfl⟩ := Option.map_eq_some_iff.mp hm
      have h₁ := h.step (s := .returned p) trivial hs₁ (by simp [Step.makes])
      have h₂ := h₁.step (s := .dropHandle p) trivial hs₂ (by simp [Step.makes])
      exact h₂.set (.waiting p) (h₂.phases c (.calling p) hc)
    · exact absurd hm (by simp)
  | raised c =>
    rw [CallMethod.move] at hm
    split at hm
    · next p hc =>
      obtain rfl := Option.some.inj hm
      exact h.leave hc (.inl rfl) (hok p (.inl hc))
    · exact absurd hm (by simp)
  | resumed c =>
    rw [CallMethod.move] at hm
    split at hm
    · next p hc =>
      obtain ⟨_, hm⟩ := Option.ite_none_right_eq_some.mp hm
      obtain rfl := Option.some.inj hm
      exact h.leave hc (.inr rfl) (hok p (.inr hc))
    · exact absurd hm (by simp)
  | cancelled c =>
    rw [CallMethod.move] at hm
    split at hm
    · next p hc =>
      obtain rfl := Option.some.inj hm
      exact h.leave hc (.inr rfl) (hok p (.inr hc))
    · exact absurd hm (by simp)
  | other s =>
    simp only [CallMethod.move, Option.ite_none_right_eq_some] at hm
    obtain ⟨hallows, hm⟩ := hm
    obtain ⟨w', hs, rfl⟩ := Option.map_eq_some_iff.mp hm
    refine h.step hok hs fun d kind hmakes => ?_
    cases s with
    | callAsync c rv =>
      obtain ⟨rfl, _⟩ := Prod.mk.inj (Option.some.inj hmakes)
      exact of_decide_eq_true hallows
    | matchAsync c rv =>
      obtain ⟨rfl, _⟩ := Prod.mk.inj (Option.some.inj hmakes)
      exact of_decide_eq_true hallows
    | _ => exact absurd hmakes (by simp [Step.makes])

/-- In every run in which the invocations wait for their replies, they leave nothing behind. -/
theorem leaves_nothing (moves : List Move) (hok : Meets move MoveOk start moves) :
    Along move LeavesNothing start moves :=
  (hok.along (fun _ _ _ h hok hm => h.move hok hm) Tidy.start).mono fun _ h => h.leavesNothing

/-- A call, its reply, and out. -/
def answeredRun : List Move :=
  [.call 0 1, .returned 0, .other (.reply 0 ⟨.methodReturn, some 1⟩), .resumed 0]

theorem leaves_nothing_answered : ∃ sys, exec move start answeredRun = some sys ∧
    sys.calls 0 = some .exited ∧ LeavesNothing sys := by
  have hrun : (exec move start answeredRun).map (fun sys => sys.calls 0) = some (some .exited) := by
    decide +kernel
  obtain ⟨sys, hsys, hc⟩ := Option.map_eq_some_iff.mp hrun
  refine ⟨sys, hsys, hc, (leaves_nothing answeredRun fun s₁ h₁ => ⟨trivial, fun s₂ h₂ => ⟨trivial,
    fun s₃ h₃ => ⟨?_, fun s₄ h₄ => ⟨?_, trivial⟩⟩⟩⟩).last hsys⟩
  · -- the record is queued when its reply comes
    have hq : (exec move start [.call 0 1, .returned 0]).map (·.world.queued) = some [0] := by decide +kernel
    simp only [exec, h₁, h₂, Option.bind_some, Option.map_some, Option.some.injEq] at hq
    exact .inl (by rw [hq]; exact List.mem_singleton.mpr rfl)
  · -- and it is answered when the fiber resumes
    have hview : (exec move start [.call 0 1, .returned 0, .other (.reply 0 ⟨.methodReturn, some 1⟩)]).map
        (fun sys => (sys.calls 0, decide (.wrote .handler 0 0 (.ok ⟨.methodReturn, some 1⟩) ∈ sys.world.log))) =
        some (some (.waiting 0), true) := by decide +kernel
    simp only [exec, h₁, h₂, h₃, Option.bind_some, Option.map_some, Option.some.injEq, Prod.mk.injEq,
      decide_eq_true_eq] at hview
    obtain ⟨hwaiting, hwrote⟩ := hview
    intro p hp
    rw [hwaiting] at hp
    rcases hp with hp | hp
    · exact absurd hp (by simp)
    · obtain rfl : 0 = p := by simpa using hp
      exact .inl ⟨0, _, hwrote⟩

/-- A call whose fiber is cancelled in `ev/take`. -/
def cancelledRun : List Move := [.call 0 1, .returned 0, .cancelled 0]

/-- The record stays queued. -/
theorem cancelledRun_leaves : ¬ ∀ moves, Along move LeavesNothing start moves := by
  intro h
  have hrun : (exec move start cancelledRun).map (fun sys => (sys.calls 0, sys.world.nextPtr,
      (sys.world.heap 0).chan, sys.world.queued)) = some (some .exited, 1, 0, [0]) := by
    decide +kernel
  obtain ⟨sys, hsys, hview⟩ := Option.map_eq_some_iff.mp hrun
  obtain ⟨hc, hn, hchan, hq⟩ : sys.calls 0 = some .exited ∧ sys.world.nextPtr = 1 ∧
      (sys.world.heap 0).chan = 0 ∧ sys.world.queued = [0] := by simpa using hview
  have hnot := ((h cancelledRun).last hsys 0 hc 0 (by rw [hn]; exact Nat.one_pos) hchan).1
  exact hnot (by rw [hq]; exact List.mem_singleton.mpr rfl)

end JanetSdbus.CallMethod
