import JanetSdbus.Schemes.LinkedList
import Mathlib.Data.Int.Notation
import Mathlib.Logic.Function.Basic

/-! A connection and its pending operations: `async.c`, `call.c`, `slot.c` and `cfun_close_bus`.

    `call-async` and `match-async` allocate three things at once: a malloc'ed record
    (`AsyncPending`, together with its `AsyncState`), a Janet slot handle and, when sd-bus accepts
    the call, an `sd_bus_slot`. They are created together and never shared, so one number names all
    three. The heap keeps what a record last held after `janet_free`; touching it then is recorded
    in the log as a fault, as is the use of a Janet object that the collector has finalized.

    Of sd-bus the model keeps what `set_floating`, `unref` and `disconnect` do to a slot: the
    reference count, whether the slot floats, whether it is still connected to the bus, and whether
    the reply it waits for is still due. The log is a ghost: no operation reads it. -/

namespace JanetSdbus.Async
open Schemes.LinkedList

/-- A record, its slot handle and its `sd_bus_slot`. -/
abbrev Ptr := ℕ

abbrev ChanId := ℕ

inductive Kind where | Call | Match
  deriving DecidableEq

structure AsyncPending where
  slot : Option Ptr
  chan : ChanId
  next : Option Ptr
  prev : Option Ptr
  kind : Kind

/-- `sd_bus_slot`. `awaiting`: the reply to the method call (for a match: to its AddMatch) has not
    been handed to the slot yet; `cookie` is the serial of that call. -/
structure SdBusSlot where
  refs : ℕ
  floating : Bool
  connected : Bool
  awaiting : Bool
  cookie : ℕ

/-- Who on the Janet side can reach a handle: only the C frame that is creating it, Janet code, or
    nobody. -/
inductive Ref where | callee | user | dropped
  deriving DecidableEq

/-- The abstract `sdbus/slot`: an `sd_bus_slot *` that may be NULL. -/
structure Handle where
  slot : Option Ptr
  ref : Ref
  finalized : Bool

structure Chan where
  closed : Bool
  rooted : Bool
  finalized : Bool

structure ItimerSpec where
  tv_sec : ℕ
  tv_nsec : ℕ
  deriving DecidableEq

/-- A `JanetStream` and whether the listener fiber is still attached to it. -/
structure Stream where
  listening : Bool
  flags : BitVec 32

structure Timer where
  listening : Bool
  setting : ItimerSpec

structure Conn where
  bus : Bool
  bus_stream : Option Stream
  timer : Option Timer
  queue : Option Ptr

structure BusError where
  name : String
  message : Option String
  deriving DecidableEq

inductive MessageType where
  | methodCall | methodReturn | methodError (error : BusError) | signal | other
  deriving DecidableEq

structure Message where
  type : MessageType
  replyCookie : Option ℕ
  deriving DecidableEq

/-- The tuple written to a channel. -/
inductive Tuple where
  | ok (msg : Message)
  | error (text : String)
  | close (text : String)
  deriving DecidableEq

/-- Which code wrote a tuple: a callback with a message, or `closeall_pending`. -/
inductive Source where | handler | install | closeall
  deriving DecidableEq

/-- The function that reads or writes a record. -/
inductive Site where | queue | dequeue | closeall | handler | caller
  deriving DecidableEq

inductive Event where
  | queued (p : Ptr)
  | answered (p : Ptr)
  | destroyed (p : Ptr)
  | cancelled (p : Ptr)
  | swept
  | wrote (src : Source) (p : Ptr) (c : ChanId) (t : Tuple)
  | freedRecord (site : Site) (p : Ptr)
  | finalizedHandle (p : Ptr)
  | finalizedChan (c : ChanId)
  deriving DecidableEq

structure World where
  conn : Conn
  heap : Ptr → AsyncPending
  freed : Ptr → Bool
  slots : Ptr → SdBusSlot
  handles : Ptr → Handle
  chans : ChanId → Chan
  nextPtr : ℕ
  /-- serial of the last message sent on the bus -/
  serial : ℕ
  /-- a panic has left a callback below `sd_bus_process`, which answers -EBUSY from then on -/
  busy : Bool
  log : List Event

/-- A C function that may be left by `janet_panic`; `diverged` is a loop that does not end. -/
inductive Outcome where
  | done (w : World)
  | raised (w : World) (msg : String)
  | diverged

def Outcome.bind : Outcome → (World → Outcome) → Outcome
  | .done w, f => f w
  | .raised w e, _ => .raised w e
  | .diverged, _ => .diverged

/-- The state after the call, whichever way it was left. -/
def Outcome.world? : Outcome → Option World
  | .done w => some w
  | .raised w _ => some w
  | .diverged => none

/-- The state after a call that returned. -/
def Outcome.done? : Outcome → Option World
  | .done w => some w
  | _ => none

namespace World

def note (w : World) (e : Event) : World := { w with log := e :: w.log }

/-- Record the accesses that hit freed memory. -/
def touch (w : World) (site : Site) (ps : List Ptr) : World :=
  { w with log := (ps.filter w.freed).map (.freedRecord site) ++ w.log }

def setNext (w : World) (p : Ptr) (x : Option Ptr) : World :=
  { w with heap := Function.update w.heap p { w.heap p with next := x } }

def setPrev (w : World) (p : Ptr) (x : Option Ptr) : World :=
  { w with heap := Function.update w.heap p { w.heap p with prev := x } }

def setQueue (w : World) (x : Option Ptr) : World :=
  { w with conn := { w.conn with queue := x } }

def setSlot (w : World) (s : Ptr) (x : SdBusSlot) : World :=
  { w with slots := Function.update w.slots s x }

def setHandle (w : World) (p : Ptr) (h : Handle) : World :=
  { w with handles := Function.update w.handles p h }

/-- The queue as an intrusive list. -/
def links (w : World) : Links Ptr where
  head := w.conn.queue
  next p := (w.heap p).next
  prev p := (w.heap p).prev

/-- The records a walk from `conn->queue` visits. -/
def queued (w : World) : List Ptr := walk w.links.next w.nextPtr w.conn.queue

end World

/-! ### async.c: the queue -/

def queuePending (w : World) (p : Ptr) : World :=
  let w := (w.setPrev p none).setNext p w.conn.queue
  let w := match w.conn.queue with
    | some h => (w.touch .queue [h]).setPrev h (some p)
    | none => w
  w.setQueue (some p)

def dequeuePending (w : World) (p : Ptr) : World :=
  if w.conn.queue = none then w
  else
    let w := w.touch .dequeue (p :: ((w.heap p).prev.toList ++ (w.heap p).next.toList))
    let w := match (w.heap p).prev with
      | some a => w.setNext a (w.heap p).next
      | none => w.setQueue (w.heap p).next
    match (w.heap p).next with
    | some b => w.setPrev b (w.heap p).prev
    | none => w

/-! ### call.c: the destroy callback, and the sd-bus slot operations that reach it -/

def destroyCallCallback (w : World) (p : Ptr) : World :=
  let w := { w with heap := Function.update w.heap p { w.heap p with slot := none } }
  let w := dequeuePending w p
  { w with freed := Function.update w.freed p true }.note (.destroyed p)

/-- `bus_slot_disconnect` without its last step: the slot leaves the bus. -/
def slotDisconnect (w : World) (s : Ptr) : World :=
  w.setSlot s { w.slots s with connected := false, awaiting := false }

/-- `sd_bus_slot_unref`: the last reference disconnects the slot and runs the destroy callback. -/
def slotUnref (w : World) (s : Ptr) : World :=
  let n := (w.slots s).refs - 1
  let w := w.setSlot s { w.slots s with refs := n }
  if n = 0 then destroyCallCallback (slotDisconnect w s) s else w

/-- `bus_slot_disconnect(slot, unref = true)`: a floating slot loses the reference of the bus. -/
def slotDetach (w : World) (s : Ptr) : World :=
  if (w.slots s).connected then
    let w' := slotDisconnect w s
    if (w.slots s).floating then slotUnref w' s else w'
  else w

/-- `sd_bus_slot_set_floating`; a disconnected slot answers -ESTALE and stays as it is. -/
def slotSetFloating (w : World) (s : Ptr) (b : Bool) : World :=
  if (w.slots s).floating = b ∨ (w.slots s).connected = false then w
  else
    let w := w.setSlot s { w.slots s with floating := b }
    if b then w.setSlot s { w.slots s with refs := (w.slots s).refs + 1 } else slotUnref w s

/-- `sd_bus_slot_unrefp(slot_ptr); *slot_ptr = NULL;` -/
def releaseHandle (w : World) (p : Ptr) : World :=
  let w' := match (w.handles p).slot with
    | some s => slotUnref w s
    | none => w
  w'.setHandle p { w'.handles p with slot := none }

/-! ### Channels -/

/-- `janet_channel_give(p->chan, tuple)` on behalf of record `p`: raises on a closed channel. -/
def channelGive (w : World) (src : Source) (p : Ptr) (t : Tuple) : Outcome :=
  let c := (w.heap p).chan
  let w := if (w.chans c).finalized then w.note (.finalizedChan c) else w
  if (w.chans c).closed then .raised w "cannot write to closed channel"
  else .done (w.note (.wrote src p c t))

/-! ### async.c: closing -/

/-- The `while (p)` loop. `n` bounds the nodes visited; running out of it means the list is cyclic. -/
def closeallLoop (tuple : Tuple) : ℕ → Option Ptr → World → Outcome
  | _, none, w => .done w
  | 0, some _, _ => .diverged
  | n + 1, some p, w =>
    let w := w.touch .closeall [p]
    let next := (w.heap p).next
    (channelGive w .closeall p tuple).bind fun w =>
      let w := if (w.handles p).finalized then w.note (.finalizedHandle p) else w
      let w := releaseHandle w p
      -- `*p->slot = NULL` reads the record again, after the unref may have freed it
      closeallLoop tuple n next (w.touch .closeall [p])

def closeallPending (w : World) (tuple : Tuple) : Outcome :=
  if w.conn.queue = none then .done w
  else
    (closeallLoop tuple w.nextPtr w.conn.queue w).bind fun w =>
      .done ((w.setQueue none).note .swept)

/-- The events that end the bus listener. READ and WRITE run `process_bus`, whose dispatches are
    the steps `reply`, `matched` and `installed` below. -/
inductive AsyncEvent where | hup | err | close
  deriving DecidableEq

def World.endListener (w : World) : World :=
  { w with conn := { w.conn with
      bus_stream := w.conn.bus_stream.map fun st => { st with listening := false } } }

def busCallback (w : World) : AsyncEvent → Outcome
  | .hup | .err =>
    (closeallPending w (.error "D-Bus connection error")).bind fun w => .done w.endListener
  | .close =>
    (closeallPending w (.close "D-Bus connection closed")).bind fun w => .done w.endListener

/-- `janet_stream_close(conn->bus_stream)`: a listener that is still attached gets CLOSE. -/
def closeBusStream (w : World) : Outcome :=
  match w.conn.bus_stream with
  | none => .done w
  | some st =>
    (if st.listening then busCallback w .close else .done w).bind fun w =>
      .done { w with conn := { w.conn with bus_stream := none } }

/-- `cfun_close_bus`. -/
def cfunCloseBus (w : World) : Outcome :=
  (closeBusStream w).bind fun w =>
    .done { w with conn := { w.conn with timer := none, bus := false } }

/-! ### call.c: the callbacks -/

def formatError (error : BusError) : String :=
  match error.message with
  | some m => "D-Bus error: " ++ error.name ++ ": " ++ m
  | none => "D-Bus error: " ++ error.name

/-- `message_copy`: a new message with the type and the body of the other one, not its headers. -/
def messageCopy (m : Message) : Message := { type := m.type, replyCookie := none }

def signalInstallHandler (w : World) (p : Ptr) (msg : Message) : Outcome :=
  let w := w.touch .handler [p]
  match msg.type with
  | .methodError error => channelGive w .install p (.error (formatError error))
  | _ => .done w

def messageHandler (w : World) (p : Ptr) (reply : Message) : Outcome :=
  let w := w.touch .handler [p]
  let kind := (w.heap p).kind
  match reply.type with
  | .methodReturn =>
    let w := if kind = .Call then (dequeuePending w p).note (.answered p) else w
    channelGive w .handler p (.ok (if kind = .Call then reply else messageCopy reply))
  | .methodCall =>
    channelGive w .handler p (.ok (if kind = .Call then reply else messageCopy reply))
  | .signal => channelGive w .handler p (.ok reply)
  | .methodError error =>
    let w := if kind = .Call then (dequeuePending w p).note (.answered p) else w
    channelGive w .handler p (.error (formatError error))
  | .other => .done w

/-! ### What sd_bus_process does with one message -/

def World.makeBusy (w : World) : World := { w with busy := true }

/-- A panic that leaves a callback leaves sd-bus busy with the message. -/
def Outcome.dispatched : Outcome → Outcome
  | .raised w e => .raised w.makeBusy e
  | o => o

/-- sd-bus holds a reference of its own while a callback runs. A panic leaves it behind. -/
def slotRef (w : World) (s : Ptr) : World :=
  w.setSlot s { w.slots s with refs := (w.slots s).refs + 1 }

/-- The reply slot `s` waited for is taken off the books and its callback is about to run. -/
def slotEnter (w : World) (s : Ptr) : World :=
  slotRef (w.setSlot s { w.slots s with awaiting := false }) s

/-- The reply to the call of slot `s`: at most once, and a floating slot is disconnected after it. -/
def processReply (w : World) (s : Ptr) (m : Message) : Outcome :=
  ((messageHandler (slotEnter w s) s m).bind fun w => .done (slotUnref (slotDetach w s) s)).dispatched

/-- A message that matches the rule of slot `s`. -/
def processMatch (w : World) (s : Ptr) (m : Message) : Outcome :=
  ((messageHandler (slotRef w s) s m).bind fun w => .done (slotUnref w s)).dispatched

/-- The reply to the AddMatch call of slot `s`: a refused floating match is disconnected. -/
def processInstall (w : World) (s : Ptr) (m : Message) : Outcome :=
  ((signalInstallHandler (slotEnter w s) s m).bind fun w =>
    match m.type with
    | .methodError _ => .done (slotUnref (slotDetach w s) s)
    | _ => .done (slotUnref w s)).dispatched

/-! ### Public operations -/

/-- `init_callback_state` and the slot it is registered with: the record, its handle and, when
    sd-bus accepted it, an `sd_bus_slot` with serial `cookie`. -/
def initCallbackState (w : World) (c : ChanId) (kind : Kind) : World :=
  let p := w.nextPtr
  { w with
    heap := Function.update w.heap p
      { slot := some p, chan := c, next := none, prev := none, kind := kind }
    freed := Function.update w.freed p false
    handles := Function.update w.handles p { slot := none, ref := .callee, finalized := false }
    nextPtr := p + 1 }

/-- What `sd_bus_call_async` and `sd_bus_add_match_async` store through the handle on success. -/
def registerSlot (w : World) (p : Ptr) : World :=
  let w := w.setSlot p
    { refs := 1, floating := false, connected := true, awaiting := true, cookie := w.serial + 1 }
  { w.setHandle p { w.handles p with slot := some p } with serial := w.serial + 1 }

/-- The body of `cfun_call_async` and `cfun_match_async` up to `settimeout`, given what sd-bus
    returned. `settimeout` itself only sets the timer and runs `process_bus`. -/
def startAsync (w : World) (c : ChanId) (kind : Kind) (rv : ℤ) : Outcome :=
  let p := w.nextPtr
  let w := initCallbackState w c kind
  if rv < 0 then
    .raised { w with freed := Function.update w.freed p true }
      (match kind with
        | .Call => "failed to call sd_bus_call_async"
        | .Match => "failed to call sd_bus_add_match_async")
  else .done (queuePending (slotSetFloating (registerSlot w p) p true) p |>.note (.queued p))

def cfunCallAsync (w : World) (c : ChanId) (rv : ℤ) : Outcome := startAsync w c .Call rv

def cfunMatchAsync (w : World) (c : ChanId) (rv : ℤ) : Outcome := startAsync w c .Match rv

/-- `janet_wrap_abstract(state->pending->slot)`: the handle reaches Janet code. -/
def returnHandle (w : World) (p : Ptr) : World :=
  let w := w.touch .caller [p]
  let w := if (w.handles p).finalized then w.note (.finalizedHandle p) else w
  w.setHandle p { w.handles p with ref := .user }

/-- `cfun_cancel_slot`. -/
def cfunCancelSlot (w : World) (p : Ptr) : World :=
  let w := match (w.handles p).slot with
    | some s => slotSetFloating w s false
    | none => w
  (releaseHandle w p).note (.cancelled p)

/-- `dbus_slot_gc`, run by the collector on a handle it is about to release. -/
def dbusSlotGc (w : World) (p : Ptr) : World :=
  let w := releaseHandle w p
  w.setHandle p { w.handles p with finalized := true }

/-! ### Steps -/

inductive Step where
  | callAsync (c : ChanId) (rv : ℤ)
  | matchAsync (c : ChanId) (rv : ℤ)
  | returned (p : Ptr)
  | reply (p : Ptr) (m : Message)
  | matched (p : Ptr) (m : Message)
  | installed (p : Ptr) (m : Message)
  | cancel (p : Ptr)
  | dropHandle (p : Ptr)
  | dropChan (c : ChanId)
  | closeChan (c : ChanId)
  | gcHandle (p : Ptr)
  | gcChan (c : ChanId)
  | hup
  | err
  | closeBus
  | busDrop (p : Ptr)
  deriving DecidableEq

/-- Is `m` the reply to the call of slot `s`? -/
def World.isReply (w : World) (s : Ptr) (m : Message) : Prop :=
  m.replyCookie = some (w.slots s).cookie ∧ m.type ≠ .methodCall ∧ m.type ≠ .signal ∧
    m.type ≠ .other

instance (w : World) (s : Ptr) (m : Message) : Decidable (w.isReply s m) := by
  unfold World.isReply; infer_instance

/-- sd-bus may run the callback of slot `p` of the given kind. -/
def World.callable (w : World) (p : Ptr) (kind : Kind) : Bool :=
  w.conn.bus && !w.busy && (w.slots p).connected && decide ((w.heap p).kind = kind) &&
    decide (p < w.nextPtr)

def World.listening (w : World) : Bool :=
  match w.conn.bus_stream with
  | some st => st.listening
  | none => false

def step (w : World) : Step → Option World
  | .callAsync c rv =>
    if (w.chans c).rooted ∧ (rv < 0 ∨ w.conn.bus) then (cfunCallAsync w c rv).world? else none
  | .matchAsync c rv =>
    if (w.chans c).rooted ∧ (rv < 0 ∨ w.conn.bus) then (cfunMatchAsync w c rv).world? else none
  | .returned p =>
    if p < w.nextPtr ∧ (w.handles p).ref = .callee then some (returnHandle w p) else none
  | .reply p m =>
    if w.callable p .Call ∧ (w.slots p).awaiting ∧ w.isReply p m then (processReply w p m).world?
    else none
  | .matched p m => if w.callable p .Match then (processMatch w p m).world? else none
  | .installed p m =>
    if w.callable p .Match ∧ (w.slots p).awaiting ∧ w.isReply p m then
      (processInstall w p m).world?
    else none
  | .cancel p =>
    if p < w.nextPtr ∧ (w.handles p).ref = .user then some (cfunCancelSlot w p) else none
  | .dropHandle p =>
    if p < w.nextPtr ∧ (w.handles p).ref = .user then
      some (w.setHandle p { w.handles p with ref := .dropped })
    else none
  | .dropChan c =>
    some { w with chans := Function.update w.chans c { w.chans c with rooted := false } }
  | .closeChan c =>
    if (w.chans c).rooted then
      some { w with chans := Function.update w.chans c { w.chans c with closed := true } }
    else none
  | .gcHandle p =>
    if p < w.nextPtr ∧ (w.handles p).ref ≠ .user ∧ (w.handles p).finalized = false then
      some (dbusSlotGc w p)
    else none
  | .gcChan c =>
    if (w.chans c).rooted = false then
      some { w with chans := Function.update w.chans c { w.chans c with finalized := true } }
    else none
  | .hup => if w.listening then (busCallback w .hup).world? else none
  | .err => if w.listening then (busCallback w .err).world? else none
  | .closeBus => (cfunCloseBus w).world?
  | .busDrop p =>
    -- the connection's own reference is gone; freeing the bus disconnects the floating slots
    if w.conn.bus = false ∧ (w.slots p).floating ∧ p < w.nextPtr then some (slotDetach w p)
    else none

/-- A connection as `init_async` leaves it: nothing pending, both listeners attached. -/
def initial : World where
  conn := { bus := true, bus_stream := some { listening := true, flags := 0 },
            timer := some { listening := true, setting := ⟨0, 0⟩ }, queue := none }
  heap := fun _ => { slot := none, chan := 0, next := none, prev := none, kind := .Call }
  freed := fun _ => false
  slots := fun _ =>
    { refs := 0, floating := false, connected := false, awaiting := false, cookie := 0 }
  handles := fun _ => { slot := none, ref := .dropped, finalized := false }
  chans := fun _ => { closed := false, rooted := true, finalized := false }
  nextPtr := 0
  serial := 0
  busy := false
  log := []

end JanetSdbus.Async
