import JanetSdbus.Async.Events

/-! What an exported method function may do to the `process_bus` that runs it.

    sd-bus runs the function inside `sd_bus_process`. While it runs, `sd_bus_process` refuses to be
    entered again, and after `close-bus` the connection has no bus, stream or timer. The functions of
    `Events` are used at two levels: `inner` is sd-bus as the method function finds it, `outer` as
    `process_bus` does. `dispatch_safe_iff` says what the functions must leave alone. -/

namespace JanetSdbus.Reentry
open Async Events

variable {β : Type}

def EBUSY : ℤ := 16
def EINVAL : ℤ := 22
def ENOTCONN : ℤ := 107

/-- The operations on the connection that a method function performs before it first suspends. -/
inductive Op where
  | callAsync
  | matchAsync
  | messageSend
  | cancel
  | closeBus
  deriving DecidableEq

/-- An operation of the function; `caught`: an error that it raises does not end the function. -/
structure Act where
  op : Op
  caught : Bool

/-- What a call of `sd_bus_process` from outside does: it runs no method function, or one that does
    `acts`, and returns after it. -/
inductive Delivery (β : Type) where
  | silent (rv : ℤ) (b : β)
  | method (b : β) (acts : List Act) (finish : β → ℤ × β)

/-- sd-bus with states `β`. -/
structure Lib (β : Type) where
  sd_bus_get_events : β → BitVec 32
  sd_bus_get_timeout : β → BitVec 64
  deliver : β → Delivery β
  call : Func → β → ℤ × β
  strerror : ℤ → String

/-- `closed`: after `sd_bus_flush_close_unref`. `reentered`: `sd_bus_process` was entered while it was
    running. -/
structure Bus (β : Type) where
  state : β
  closed : Bool
  reentered : Bool

variable (lib : Lib β)

/-- A closed bus refuses every call. -/
def callOpen (f : Func) (b : Bus β) : ℤ × Bus β :=
  if b.closed then (-ENOTCONN, b)
  else ((lib.call f b.state).1, { b with state := (lib.call f b.state).2 })

/-- sd-bus while a method function runs: `sd_bus_process` fails, because it is running. -/
def inner : SdBus (Bus β) where
  sd_bus_get_events b := lib.sd_bus_get_events b.state
  sd_bus_get_timeout b := lib.sd_bus_get_timeout b.state
  sd_bus_process b c := { rv := -EBUSY, bus := { b with reentered := true }, conn := c }
  call := callOpen lib
  strerror := lib.strerror

/-- An operation as the method function performs it. Its `process_bus` calls `sd_bus_process` once. -/
def perform : Op → State (Bus β) → Result (Bus β)
  | .callAsync, s => Events.cfunCallAsync (inner lib) 1 s
  | .matchAsync, s => Events.cfunMatchAsync (inner lib) s
  | .messageSend, s => Events.cfunMessageSend (inner lib) s
  | .cancel, s => Events.cfunCancelSlot (inner lib) s
  | .closeBus, s => .done (Events.cfunCloseBus { s with bus := { s.bus with closed := true } })

/-- `janet_pcall` of the method function. -/
def runActs : List Act → State (Bus β) → State (Bus β)
  | [], s => s
  | a :: rest, s =>
    match perform lib a.op s with
    | .done s' => runActs rest s'
    | .raised s' _ => if a.caught then runActs rest s' else s'
    -- does not happen: `perform_ends`
    | .crashed => s
    | .running => s

/-- sd-bus as `process_bus` finds it. -/
def outer : SdBus (Bus β) where
  sd_bus_get_events b := lib.sd_bus_get_events b.state
  sd_bus_get_timeout b := lib.sd_bus_get_timeout b.state
  sd_bus_process b c :=
    if c.bus = false then { rv := -EINVAL, bus := b, conn := c }
    else
      match lib.deliver b.state with
      | .silent rv x => { rv := rv, bus := { b with state := x }, conn := c }
      | .method x acts finish =>
        let s := runActs lib acts { conn := c, bus := { b with state := x }, returned := true }
        { rv := (finish s.bus.state).1, bus := { s.bus with state := (finish s.bus.state).2 }, conn := s.conn }
  call := callOpen lib
  strerror := lib.strerror

/-! ### Safety -/

/-- `process_bus` entered in state `s` comes to call `sd_bus_process` in state `s'`. -/
inductive Passes (sd : SdBus β) (s : State β) : State β → Prop where
  | start : Passes sd s s
  | again (s' : State β) : Passes sd s s' → 0 < (sd.sd_bus_process s'.bus s'.conn).rv →
      Passes sd s { s' with
        bus := (sd.sd_bus_process s'.bus s'.conn).bus
        conn := (sd.sd_bus_process s'.bus s'.conn).conn }
  | expired (s' s₁ : State β) : Passes sd s s' → (sd.sd_bus_process s'.bus s'.conn).rv = 0 →
      setevents sd { s' with
        bus := (sd.sd_bus_process s'.bus s'.conn).bus
        conn := (sd.sd_bus_process s'.bus s'.conn).conn } = .done s₁ →
      sd.sd_bus_get_timeout s₁.bus = 0 → Passes sd s s₁

/-- The connection has everything that `process_bus` uses. -/
structure Open (c : Conn) : Prop where
  bus : c.bus = true
  stream : c.bus_stream.isSome = true
  timer : c.timer.isSome = true

/-- `process_bus` comes back or goes on, finds the connection open each time it calls
    `sd_bus_process`, and none of these calls is entered a second time. -/
structure Safe (s : State (Bus β)) : Prop where
  returns : ∀ n, (∃ s', processBus (outer lib) n s = .done s') ∨ processBus (outer lib) n s = .running
  live : ∀ s', Passes (outer lib) s s' → Open s'.conn
  once : ∀ s', Passes (outer lib) s s' →
    ((outer lib).sd_bus_process s'.bus s'.conn).bus.reentered = false

/-- A connection at rest: the bus is open. -/
structure Ready (s : State (Bus β)) : Prop where
  conn : Open s.conn
  closed : s.bus.closed = false
  reentered : s.bus.reentered = false

/-- The operation leaves the enclosing `process_bus` alone: it does not close the bus, and it does not
    make a call when sd-bus reports a deadline of 0. -/
def OpOk (op : Op) (b : β) : Prop :=
  match op with
  | .closeBus => False
  | .callAsync => 0 ≤ (lib.call .sd_bus_call_async b).1 → lib.sd_bus_get_timeout (((lib.call
      .sd_bus_slot_set_destroy_callback (lib.call .sd_bus_slot_set_floating
        (lib.call .sd_bus_call_async b).2).2).2)) ≠ 0
  | _ => True

/-- Every operation that the function performs leaves `process_bus` alone. -/
def ActsOk : List Act → State (Bus β) → Prop
  | [], _ => True
  | a :: rest, s => OpOk lib a.op s.bus.state ∧
    match perform lib a.op s with
    | .done s' => ActsOk rest s'
    | .raised s' _ => a.caught = true → ActsOk rest s'
    | .crashed => True
    | .running => True

/-- What sd-bus delivers in state `s` is harmless, and `sd_bus_process` does not fail by itself. -/
def TurnOk (s : State (Bus β)) : Prop :=
  match lib.deliver s.bus.state with
  | .silent rv _ => 0 ≤ rv
  | .method x acts finish =>
    ActsOk lib acts { conn := s.conn, bus := { s.bus with state := x }, returned := true } ∧
      0 ≤ (finish (runActs lib acts
        { conn := s.conn, bus := { s.bus with state := x }, returned := true }).bus.state).1

/-! ### One operation -/

variable {lib} {s s' : State (Bus β)}

/-- The function came back in state `s'`, with or without an error. -/
def EndsIn (r : Result (Bus β)) (s' : State (Bus β)) : Prop := r = .done s' ∨ ∃ e, r = .raised s' e

/-- The connection is open, or `close-bus` cleared it. -/
structure Sane (s : State (Bus β)) : Prop where
  conn : s.conn.bus = true → Open s.conn
  closed : s.bus.closed = !s.conn.bus
  cleared : s.conn.bus = false → s.conn.bus_stream = none

theorem Ready.sane (h : Ready s) : Sane s where
  conn _ := h.conn
  closed := by rw [h.closed, h.conn.bus]; rfl
  cleared hno := by rw [h.conn.bus] at hno; simp at hno

/-- An open connection stays open or is closed for good, and what was entered stays entered. -/
structure Goes (s s' : State (Bus β)) : Prop where
  sane : Sane s'
  bus : s.conn.bus = false → s'.conn.bus = false
  reentered : s.bus.reentered = true → s'.bus.reentered = true

theorem Goes.refl (h : Sane s) : Goes s s := ⟨h, id, id⟩

theorem Goes.trans {s₁ : State (Bus β)} (h₁ : Goes s s₁) (h₂ : Goes s₁ s') : Goes s s' :=
  ⟨h₂.sane, fun h => h₂.bus (h₁.bus h), fun h => h₂.reentered (h₁.reentered h)⟩

theorem callOpen_closed {b : Bus β} (h : b.closed = true) (f : Func) :
    callOpen lib f b = (-ENOTCONN, b) := if_pos h

theorem callOpen_open {b : Bus β} (h : b.closed = false) (f : Func) :
    callOpen lib f b = ((lib.call f b.state).1, { b with state := (lib.call f b.state).2 }) :=
  if_neg (by rw [h]; simp)

/-- After a call into sd-bus. -/
def called (lib : Lib β) (f : Func) (s : State (Bus β)) : State (Bus β) :=
  { s with bus := (callOpen lib f s.bus).2 }

theorem called_state (h : s.bus.closed = false) (f : Func) :
    (called lib f s).bus.closed = false ∧ (called lib f s).bus.state = (lib.call f s.bus.state).2 := by
  rw [called, callOpen_open h]
  exact ⟨h, rfl⟩

theorem Goes.call (h : Sane s) (f : Func) : Goes s (called lib f s) := by
  have hkeep : (callOpen lib f s.bus).2.closed = s.bus.closed ∧
      (callOpen lib f s.bus).2.reentered = s.bus.reentered := by
    rw [callOpen]
    split <;> exact ⟨rfl, rfl⟩
  exact ⟨⟨h.conn, hkeep.1.trans h.closed, h.cleared⟩, id, fun hr => hkeep.2.trans hr⟩

theorem Ready.call (h : Ready s) (f : Func) : Ready (called lib f s) := by
  rw [called, callOpen_open h.closed]
  exact ⟨h.conn, h.closed, h.reentered⟩

/-- A checked call raises, or it succeeded on an open bus. -/
theorem callSdBusFunc_ends (lib : Lib β) (f : Func) (s : State (Bus β)) :
    ((∃ e, callSdBusFunc (inner lib) f s = .raised (called lib f s) e) ∧
        (s.bus.closed = false → (lib.call f s.bus.state).1 < 0)) ∨
      (callSdBusFunc (inner lib) f s = .done (called lib f s) ∧ s.bus.closed = false ∧
        0 ≤ (lib.call f s.bus.state).1) := by
  have hcall : (inner lib).call f s.bus = callOpen lib f s.bus := rfl
  rw [callSdBusFunc_eq, hcall]
  by_cases hrv : (callOpen lib f s.bus).1 < 0
  · rw [if_pos hrv]
    refine .inl ⟨⟨_, rfl⟩, fun hclosed => ?_⟩
    rwa [callOpen_open hclosed] at hrv
  · rw [if_neg hrv]
    cases hclosed : s.bus.closed with
    | true =>
      rw [callOpen_closed hclosed] at hrv
      exact absurd (show -ENOTCONN < 0 by decide) hrv
    | false =>
      rw [callOpen_open hclosed] at hrv
      exact .inr ⟨rfl, rfl, Int.not_lt.mp hrv⟩

/-- The `settimeout` of a method function: it sets the timer, or enters `sd_bus_process` again. -/
theorem settimeout_ends (h : Sane s) (hbus : s.conn.bus = true) :
    ∃ s', EndsIn (settimeout (inner lib) 1 s) s' ∧ Goes s s' ∧
      (lib.sd_bus_get_timeout s.bus.state = 0 → s'.bus.reentered = true) ∧
      (lib.sd_bus_get_timeout s.bus.state ≠ 0 → Ready s → Ready s') := by
  have hget : (inner lib).sd_bus_get_timeout s.bus = lib.sd_bus_get_timeout s.bus.state := rfl
  rw [settimeout, settimeoutWith, hget]
  by_cases hzero : lib.sd_bus_get_timeout s.bus.state = 0
  · rw [if_pos hzero]
    exact ⟨{ s with bus := { s.bus with reentered := true } }, .inr ⟨_, rfl⟩,
      ⟨⟨h.conn, h.closed, h.cleared⟩, id, fun _ => rfl⟩, fun _ => rfl, fun hne => absurd hzero hne⟩
  · obtain ⟨tm, htm⟩ := Option.isSome_iff_exists.mp (h.conn hbus).timer
    rw [if_neg hzero, htm]
    exact ⟨_, .inl rfl, ⟨⟨fun hb => ⟨hb, (h.conn hb).stream, rfl⟩, h.closed, h.cleared⟩, id, id⟩,
      fun h0 => absurd h0 hzero, fun _ hr => ⟨⟨hr.conn.bus, hr.conn.stream, rfl⟩, hr.closed, hr.reentered⟩⟩

/-- What an operation can do, and on an open bus whether it leaves `process_bus` alone. -/
structure Performs (lib : Lib β) (op : Op) (s s' : State (Bus β)) : Prop where
  ends : EndsIn (perform lib op s) s'
  goes : Goes s s'
  ok : Ready s → OpOk lib op s.bus.state → Ready s'
  bad : Ready s → ¬ OpOk lib op s.bus.state → s'.conn.bus = false ∨ s'.bus.reentered = true

theorem callAsync_performs (h : Sane s) : ∃ s', Performs lib .callAsync s s' := by
  have hunfold : perform lib .callAsync s = Events.cfunCallAsync (inner lib) 1 s := rfl
  have h₁ : Goes s (called lib .sd_bus_call_async s) := .call h _
  rcases callSdBusFunc_ends lib .sd_bus_call_async s with ⟨⟨e, hraised⟩, hrv⟩ | ⟨hdone, hclosed, hrv⟩
  · refine ⟨called lib .sd_bus_call_async s, .inr ⟨e, ?_⟩, h₁, fun hr _ => hr.call _, fun hr hno => ?_⟩
    · rw [hunfold, Events.cfunCallAsync, hraised]
      rfl
    · exact absurd (fun h0 => absurd (hrv hr.closed) (Int.not_lt.mpr h0)) hno
  -- the call, `set_floating` and `set_destroy_callback`, then `settimeout`
  have hbus : s.conn.bus = true := by
    have hnot := h.closed
    rw [hclosed] at hnot
    simpa using hnot.symm
  have h₂ : Goes _ (called lib .sd_bus_slot_set_floating (called lib .sd_bus_call_async s)) := .call h₁.sane _
  have h₃ : Goes _ (called lib .sd_bus_slot_set_destroy_callback
    (called lib .sd_bus_slot_set_floating (called lib .sd_bus_call_async s))) := .call h₂.sane _
  have hstate : (called lib .sd_bus_slot_set_destroy_callback (called lib .sd_bus_slot_set_floating
      (called lib .sd_bus_call_async s))).bus.state = (lib.call .sd_bus_slot_set_destroy_callback
        (lib.call .sd_bus_slot_set_floating (lib.call .sd_bus_call_async s.bus.state).2).2).2 := by
    obtain ⟨hc₁, hs₁⟩ : _ ∧ (called lib .sd_bus_call_async s).bus.state = _ := called_state hclosed _
    obtain ⟨hc₂, hs₂⟩ : _ ∧ (called lib .sd_bus_slot_set_floating _).bus.state = _ := called_state hc₁ _
    rw [(called_state hc₂ _).2, hs₂, hs₁]
  obtain ⟨s', hends, hgoes, hzero, hmore⟩ := settimeout_ends h₃.sane hbus
  rw [hstate] at hzero hmore
  refine ⟨s', ?_, ((h₁.trans h₂).trans h₃).trans hgoes, fun hr hok => ?_, fun hr hno => ?_⟩
  · rw [hunfold, Events.cfunCallAsync, hdone]
    exact hends
  · exact hmore (hok hrv) (((hr.call _).call _).call _)
  · right
    by_contra hfalse
    exact hno fun _ h0 => hfalse (hzero h0)

theorem matchAsync_performs (h : Sane s) : ∃ s', Performs lib .matchAsync s s' := by
  have hunfold : perform lib .matchAsync s = Events.cfunMatchAsync (inner lib) s := rfl
  have h₁ : Goes s (called lib .sd_bus_add_match_async s) := .call h _
  rcases callSdBusFunc_ends lib .sd_bus_add_match_async s with ⟨⟨e, hraised⟩, _⟩ | ⟨hdone, _, _⟩
  · refine ⟨_, .inr ⟨e, ?_⟩, h₁, fun hr _ => hr.call _, fun _ hno => absurd trivial hno⟩
    rw [hunfold, Events.cfunMatchAsync, hraised]
    rfl
  · have h₂ : Goes _ (called lib .sd_bus_slot_set_floating (called lib .sd_bus_add_match_async s)) :=
      .call h₁.sane _
    have h₃ : Goes _ (called lib .sd_bus_slot_set_destroy_callback (called lib .sd_bus_slot_set_floating
      (called lib .sd_bus_add_match_async s))) := .call h₂.sane _
    refine ⟨_, .inl ?_, (h₁.trans h₂).trans h₃, fun hr _ => ((hr.call _).call _).call _,
      fun _ hno => absurd trivial hno⟩
    rw [hunfold, Events.cfunMatchAsync, hdone]
    rfl

theorem perform_ends (lib : Lib β) (h : Sane s) (op : Op) : ∃ s', Performs lib op s s' := by
  cases op with
  | callAsync => exact callAsync_performs h
  | matchAsync => exact matchAsync_performs h
  | messageSend =>
    have h₁ : Goes s (called lib .sd_bus_message_send s) := .call h _
    have hends : EndsIn (perform lib .messageSend s) (called lib .sd_bus_message_send s) := by
      rcases callSdBusFunc_ends lib .sd_bus_message_send s with ⟨hraised, _⟩ | ⟨hdone, _⟩
      · exact .inr hraised
      · exact .inl hdone
    exact ⟨_, hends, h₁, fun hr _ => hr.call _, fun _ hno => absurd trivial hno⟩
  | cancel =>
    have h₁ : Goes s (called lib .sd_bus_slot_set_floating s) := .call h _
    have h₂ : Goes _ (called lib .sd_bus_slot_unref (called lib .sd_bus_slot_set_floating s)) :=
      .call h₁.sane _
    exact ⟨_, .inl rfl, h₁.trans h₂, fun hr _ => (hr.call _).call _, fun _ hno => absurd trivial hno⟩
  | closeBus =>
    exact ⟨_, .inl rfl, ⟨⟨fun hb => absurd hb (by simp [Events.cfunCloseBus]), rfl, fun _ => rfl⟩, fun _ => rfl, id⟩,
      fun _ hok => hok.elim, fun _ _ => .inl rfl⟩

/-! ### A whole function -/

/-- After an operation the function goes on or ends. -/
theorem runActs_cons (lib : Lib β) (h : Sane s) (a : Act) (rest : List Act) : ∃ s', Performs lib a.op s s' ∧
    ((runActs lib (a :: rest) s = runActs lib rest s' ∧
        (ActsOk lib (a :: rest) s ↔ OpOk lib a.op s.bus.state ∧ ActsOk lib rest s')) ∨
      (runActs lib (a :: rest) s = s' ∧ (ActsOk lib (a :: rest) s ↔ OpOk lib a.op s.bus.state))) := by
  obtain ⟨s', hs'⟩ := perform_ends lib h a.op
  refine ⟨s', hs', ?_⟩
  rcases hs'.ends with hdone | ⟨e, hraised⟩
  · exact .inl ⟨by simp only [runActs, hdone], by simp only [ActsOk, hdone]⟩
  · cases hcaught : a.caught with
    | true =>
      refine .inl ⟨?_, ?_⟩
      · simp only [runActs, hraised, hcaught, if_true]
      · simp only [ActsOk, hraised, hcaught, true_implies]
    | false =>
      refine .inr ⟨?_, ?_⟩
      · simp only [runActs, hraised, hcaught, Bool.false_eq_true, if_false]
      · simp only [ActsOk, hraised, hcaught, Bool.false_eq_true, false_implies, and_true]

theorem runActs_goes (lib : Lib β) (h : Sane s) (acts : List Act) : Goes s (runActs lib acts s) := by
  induction acts generalizing s with
  | nil => exact .refl h
  | cons a rest ih =>
    obtain ⟨s', hs', ⟨hrun, _⟩ | ⟨hrun, _⟩⟩ := runActs_cons lib h a rest
    · rw [hrun]
      exact hs'.goes.trans (ih hs'.goes.sane)
    · rw [hrun]
      exact hs'.goes

theorem runActs_ok {acts : List Act} (h : Ready s) (hok : ActsOk lib acts s) :
    Ready (runActs lib acts s) := by
  induction acts generalizing s with
  | nil => exact h
  | cons a rest ih =>
    obtain ⟨s', hs', ⟨hrun, hiff⟩ | ⟨hrun, hiff⟩⟩ := runActs_cons lib h.sane a rest
    · rw [hrun]
      obtain ⟨hop, hrest⟩ := hiff.mp hok
      exact ih (hs'.ok h hop) hrest
    · rw [hrun]
      exact hs'.ok h (hiff.mp hok)

/-- A function that does not leave `process_bus` alone closed the bus or entered `sd_bus_process`. -/
theorem runActs_bad {acts : List Act} (h : Ready s) (hno : ¬ ActsOk lib acts s) :
    (runActs lib acts s).conn.bus = false ∨ (runActs lib acts s).bus.reentered = true := by
  induction acts generalizing s with
  | nil => exact absurd trivial hno
  | cons a rest ih =>
    obtain ⟨s', hs', ⟨hrun, hiff⟩ | ⟨hrun, hiff⟩⟩ := runActs_cons lib h.sane a rest
    · rw [hrun]
      by_cases hop : OpOk lib a.op s.bus.state
      · exact ih (hs'.ok h hop) fun hrest => hno (hiff.mpr ⟨hop, hrest⟩)
      · have hgoes := runActs_goes lib hs'.goes.sane rest
        exact (hs'.bad h hop).imp hgoes.bus hgoes.reentered
    · rw [hrun]
      exact hs'.bad h fun hop => hno (hiff.mpr hop)

/-! ### One call of `sd_bus_process` -/

/-- The state after the call of `sd_bus_process` in state `s`. -/
def turned (lib : Lib β) (s : State (Bus β)) : State (Bus β) :=
  { s with
    bus := ((outer lib).sd_bus_process s.bus s.conn).bus
    conn := ((outer lib).sd_bus_process s.bus s.conn).conn }

/-- What it returned. -/
def answer (lib : Lib β) (s : State (Bus β)) : ℤ := ((outer lib).sd_bus_process s.bus s.conn).rv

theorem turn_ok (h : Ready s) (hok : TurnOk lib s) : 0 ≤ answer lib s ∧ Ready (turned lib s) := by
  rw [TurnOk] at hok
  rw [answer, turned]
  simp only [outer, h.conn.bus, Bool.true_eq_false, if_false]
  cases hd : lib.deliver s.bus.state with
  | silent rv x =>
    rw [hd] at hok
    exact ⟨hok, h.conn, h.closed, h.reentered⟩
  | method x acts finish =>
    rw [hd] at hok
    have hready : Ready (runActs lib acts { conn := s.conn, bus := { s.bus with state := x }, returned := true }) :=
      runActs_ok ⟨h.conn, h.closed, h.reentered⟩ hok.1
    exact ⟨hok.2, hready.conn, hready.closed, hready.reentered⟩

theorem turn_bad (h : Ready s) (hno : ¬ TurnOk lib s) : answer lib s < 0 ∨
    ((turned lib s).conn.bus = false ∧ (turned lib s).conn.bus_stream = none) ∨
    (turned lib s).bus.reentered = true := by
  rw [TurnOk] at hno
  rw [answer, turned]
  simp only [outer, h.conn.bus, Bool.true_eq_false, if_false]
  cases hd : lib.deliver s.bus.state with
  | silent rv x =>
    rw [hd] at hno
    exact .inl (Int.not_le.mp hno)
  | method x acts finish =>
    rw [hd] at hno
    have hready : Ready { conn := s.conn, bus := { s.bus with state := x }, returned := true } :=
      ⟨h.conn, h.closed, h.reentered⟩
    by_cases hacts : ActsOk lib acts { conn := s.conn, bus := { s.bus with state := x }, returned := true }
    · exact .inl (Int.not_le.mp fun hrv => hno ⟨hacts, hrv⟩)
    · rcases runActs_bad hready hacts with hbus | hre
      · exact .inr (.inl ⟨hbus, (runActs_goes lib hready.sane acts).sane.cleared hbus⟩)
      · exact .inr (.inr hre)

/-! ### `process_bus` -/

theorem setevents_ready (h : Ready s) : ∃ s₁, setevents (outer lib) s = .done s₁ ∧ Ready s₁ := by
  obtain ⟨st, hst⟩ := Option.isSome_iff_exists.mp h.conn.stream
  rw [setevents, hst]
  exact ⟨_, rfl, ⟨h.conn.bus, rfl, h.conn.timer⟩, h.closed, h.reentered⟩

theorem processBus_again (n : ℕ) (h : 0 < answer lib s) :
    processBus (outer lib) (n + 1) s = processBus (outer lib) n (turned lib s) := by
  rw [answer] at h
  simp only [processBus, h, if_true]
  rfl

theorem processBus_settles (n : ℕ) (h : answer lib s = 0) : processBus (outer lib) (n + 1) s =
    (setevents (outer lib) (turned lib s)).bind fun s₁ => settimeout (outer lib) n s₁ := by
  rw [answer] at h
  simp only [processBus, h, Int.lt_irrefl, if_false]
  rfl

theorem processBus_fails (n : ℕ) (h : answer lib s < 0) :
    ∃ s₁ e, processBus (outer lib) (n + 1) s = .raised s₁ e := by
  rw [answer] at h
  have hpos : ¬ 0 < ((outer lib).sd_bus_process s.bus s.conn).rv := by omega
  simp only [processBus, hpos, h, if_true, if_false]
  exact ⟨_, _, rfl⟩

/-- `process_bus` does from a state it passes what it does from there. -/
theorem passes_run (h : Passes (outer lib) s s') :
    ∃ k, ∀ n, processBus (outer lib) (n + k) s = processBus (outer lib) n s' := by
  induction h with
  | start => exact ⟨0, fun n => rfl⟩
  | again s₂ _ hrv ih =>
    obtain ⟨k, hk⟩ := ih
    refine ⟨k + 1, fun n => ?_⟩
    rw [show n + (k + 1) = n + 1 + k by omega, hk]
    exact processBus_again n hrv
  | expired s₂ s₁ _ hrv hset htimeout ih =>
    obtain ⟨k, hk⟩ := ih
    refine ⟨k + 1, fun n => ?_⟩
    rw [show n + (k + 1) = n + 1 + k by omega, hk, processBus_settles n hrv]
    have hset' : setevents (outer lib) (turned lib s₂) = .done s₁ := hset
    rw [hset', Result.bind, settimeout, settimeoutWith, if_pos htimeout]

theorem Safe.turn (hsafe : Safe lib s) (hp : Passes (outer lib) s s') (h : Ready s') : TurnOk lib s' := by
  by_contra hno
  obtain ⟨k, hk⟩ := passes_run hp
  have hreturns := hsafe.returns (1 + k)
  rw [hk] at hreturns
  have hfails : ¬ answer lib s' < 0 := by
    intro hrv
    obtain ⟨s₁, e, hraised⟩ := processBus_fails 0 hrv
    rw [hraised] at hreturns
    simp at hreturns
  rcases turn_bad h hno with hrv | ⟨hbus, hstream⟩ | hre
  · exact hfails hrv
  · rcases Int.lt_trichotomy (answer lib s') 0 with hrv | hrv | hrv
    · exact hfails hrv
    · rw [processBus_settles 0 hrv, setevents, hstream] at hreturns
      simp [Result.bind] at hreturns
    · have hopen := (hsafe.live _ (.again s' hp hrv)).bus
      have hbus' : ((outer lib).sd_bus_process s'.bus s'.conn).conn.bus = false := hbus
      rw [hbus'] at hopen
      simp at hopen
  · have honce := hsafe.once s' hp
    have hre' : ((outer lib).sd_bus_process s'.bus s'.conn).bus.reentered = true := hre
    rw [honce] at hre'
    simp at hre'

theorem passes_ready (h : Ready s) (hok : ∀ s', Passes (outer lib) s s' → Ready s' → TurnOk lib s')
    (hp : Passes (outer lib) s s') : Ready s' := by
  induction hp with
  | start => exact h
  | again s₂ hp _ ih => exact (turn_ok ih (hok s₂ hp ih)).2
  | expired s₂ s₁ hp _ hset _ ih =>
    obtain ⟨s₃, hset', hready⟩ := setevents_ready (turn_ok ih (hok s₂ hp ih)).2
    have hsame : setevents (outer lib) (turned lib s₂) = .done s₁ := hset
    rw [hset'] at hsame
    obtain rfl : s₃ = s₁ := by simpa using hsame
    exact hready

theorem processBus_returns (hok : ∀ s', Passes (outer lib) s s' → Ready s' ∧ TurnOk lib s') (n : ℕ)
    (hp : Passes (outer lib) s s') :
    (∃ s₁, processBus (outer lib) n s' = .done s₁) ∨ processBus (outer lib) n s' = .running := by
  induction n generalizing s' with
  | zero => exact .inr rfl
  | succ n ih =>
    obtain ⟨hready, hturn⟩ := hok s' hp
    obtain ⟨hrv, hnext⟩ := turn_ok hready hturn
    rcases Int.lt_or_eq_of_le hrv with hrv | hrv
    · rw [processBus_again n hrv]
      exact ih (.again s' hp hrv)
    · obtain ⟨s₁, hset, hready₁⟩ := setevents_ready hnext
      rw [processBus_settles n hrv.symm, hset, Result.bind, settimeout, settimeoutWith]
      split
      · next htimeout => exact ih (.expired s' s₁ hp hrv.symm hset htimeout)
      · obtain ⟨tm, htm⟩ := Option.isSome_iff_exists.mp hready₁.conn.timer
        rw [htm]
        exact .inl ⟨_, rfl⟩

/-- `process_bus` is safe exactly when every method function that it comes to run leaves it alone, and
    `sd_bus_process` does not fail by itself. -/
theorem dispatch_safe_iff (lib : Lib β) {s : State (Bus β)} (h : Ready s) :
    Safe lib s ↔ ∀ s', Passes (outer lib) s s' → TurnOk lib s' := by
  constructor
  · intro hsafe s' hp
    exact hsafe.turn hp (passes_ready h (fun _ hp' hready => hsafe.turn hp' hready) hp)
  · intro hok
    have hready : ∀ s', Passes (outer lib) s s' → Ready s' := fun s' hp =>
      passes_ready h (fun s₁ hp₁ _ => hok s₁ hp₁) hp
    exact {
      returns := fun n => processBus_returns (fun s' hp => ⟨hready s' hp, hok s' hp⟩) n .start
      live := fun s' hp => (hready s' hp).conn
      once := fun s' hp => (turn_ok (hready s' hp) (hok s' hp)).2.reentered }

/-- A connection as `init_async` leaves it. -/
def atRest (b : β) : State (Bus β) where
  conn := { bus := true, bus_stream := some { listening := true, flags := 0 },
            timer := some { listening := true, setting := ⟨0, 0⟩ }, queue := none }
  bus := { state := b, closed := false, reentered := false }
  returned := true

theorem atRest_ready (b : β) : Ready (atRest b) := ⟨⟨rfl, rfl, rfl⟩, rfl, rfl⟩

/-- One call is waiting; its method function does `acts`. -/
def waitingLib (acts : List Act) : Lib Bool where
  sd_bus_get_events _ := POLLIN
  sd_bus_get_timeout _ := UINT64_MAX
  deliver waiting := if waiting then .method false acts fun b => (1, b) else .silent 0 false
  call _ b := (0, b)
  strerror _ := ""

/-- The method function closes the connection, and `process_bus` goes on with a NULL bus. -/
theorem closeBus_unsafe : ¬ ∀ (β : Type) (lib : Lib β) (s : State (Bus β)), Ready s → Safe lib s := by
  intro h
  have hraised : ∃ s₁ e, processBus (outer (waitingLib [⟨.closeBus, false⟩])) 2 (atRest true) =
      .raised s₁ e := ⟨_, _, rfl⟩
  obtain ⟨s₁, e, hraised⟩ := hraised
  have hreturns := (h Bool (waitingLib [⟨.closeBus, false⟩]) _ (atRest_ready true)).returns 2
  rw [hraised] at hreturns
  simp at hreturns

/-- Without deadlines only `close-bus` does harm. -/
theorem waiting_ok (all : List Act) {acts : List Act} (hno : ∀ a ∈ acts, a.op ≠ .closeBus)
    (s : State (Bus Bool)) : ActsOk (waitingLib all) acts s := by
  induction acts generalizing s with
  | nil => trivial
  | cons a rest ih =>
    have hrest := ih fun b hb => hno b (List.mem_cons_of_mem _ hb)
    have hop : OpOk (waitingLib all) a.op s.bus.state := by
      cases ha : a.op with
      | closeBus => exact absurd ha (hno a (by simp))
      | callAsync => exact fun _ => by simp [waitingLib, UINT64_MAX]
      | _ => trivial
    rw [ActsOk]
    refine ⟨hop, ?_⟩
    split
    · exact hrest _
    · exact fun _ => hrest _
    · trivial
    · trivial

/-- A method function that sends a message and makes a call. -/
theorem dispatch_safe_call :
    Safe (waitingLib [⟨.messageSend, false⟩, ⟨.callAsync, false⟩]) (atRest true) := by
  refine (dispatch_safe_iff _ (atRest_ready true)).mpr fun s' _ => ?_
  rw [TurnOk]
  cases hb : s'.bus.state with
  | false => exact Int.le_refl 0
  | true => exact ⟨waiting_ok _ (by decide) _, Int.one_nonneg⟩

end JanetSdbus.Reentry
