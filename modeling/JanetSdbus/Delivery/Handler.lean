import JanetSdbus.Async.Frame
import JanetSdbus.Message.Read
import JanetSdbus.Message.Walker

/-! What `message_handler` puts into a channel.

    `Async` only says which tuple a callback writes. Here a message is what a receiver can look at: its
    type, its headers and its body with the read cursor. A call's reply and a signal are handed out
    themselves; a match gets a copy of a method call or a method return, and the copy has no headers
    (`faithful_iff`). -/

namespace JanetSdbus.Delivery
open DBus Message
open Async (MessageType Kind formatError)

/-! ### Messages -/

structure Headers where
  sender : Option CString
  destination : Option CString
  path : Option CString
  interface : Option CString
  member : Option CString
  deriving DecidableEq

/-- An `sd_bus_message`; a header that is not there is NULL. -/
structure SdBusMessage where
  type : MessageType
  replyCookie : Option ℕ
  headers : Headers
  reader : Reader

/-- Code that has a received message in hand. -/
abbrev Receiving := EStateM Stop SdBusMessage

/-- Work with the cursor of the message. -/
def withCursor {α : Type} (x : Read α) : Receiving α := fun m =>
  match x m.reader with
  | .ok a r => .ok a { m with reader := r }
  | .error e r => .error e { m with reader := r }

/-! ### sd-bus -/

def sdBusMessageNew (type : MessageType) : SdBusMessage where
  type := type
  replyCookie := none
  headers := ⟨none, none, none, none, none⟩
  reader := ⟨[], false, [[]]⟩

/-- `sd_bus_message_copy(new, msg, true)`: what lies ahead of the cursor of `msg`. -/
def sdBusMessageCopy (new : SdBusMessage) : Receiving SdBusMessage := do
  let m ← get
  let ahead := m.reader.stack.headD []
  set { m with reader := { m.reader with stack := [] :: m.reader.stack.tail } }
  pure { new with reader := { new.reader with body := new.reader.body ++ ahead } }

def sdBusMessageSeal (new : SdBusMessage) : SdBusMessage :=
  { new with reader := sealMessage new.reader.body }

/-! ### call.c -/

variable (rt : Runtime)

def messageCopy (type : MessageType) : Receiving SdBusMessage := do
  let new := sdBusMessageNew type
  withCursor (rewind rt)
  let new ← sdBusMessageCopy new
  withCursor (rewind rt)
  pure (sdBusMessageSeal new)

/-- What is pushed: the received message itself, a new one, an error, or nothing. -/
inductive Pushed where
  | ref
  | copy (new : SdBusMessage)
  | error (text : String)
  | nothing

/-- `message_handler`, without the queue. -/
def messageHandler (kind : Kind) : Receiving Pushed := do
  let m ← get
  match m.type with
  | .methodReturn | .methodCall =>
    if kind = .Call then pure .ref
    else do
      let new ← messageCopy rt m.type
      pure (.copy new)
  | .signal => pure .ref
  | .methodError error => pure (.error (formatError error))
  | .other => pure .nothing

/-! ### message.c: the header accessors -/

inductive Target where | destination | path | interface | member | sender
  deriving DecidableEq

/-- `sd_bus_message_get_##target`. -/
def Headers.get (h : Headers) : Target → Option CString
  | .destination => h.destination
  | .path => h.path
  | .interface => h.interface
  | .member => h.member
  | .sender => h.sender

/-- `MESSAGE_GET`: `janet_cstringv` of NULL is undefined. -/
def messageGet (target : Target) (m : SdBusMessage) : Option Janet :=
  (m.headers.get target).map fun s => .string s.bytes

def cfunMessageGetDestination := messageGet .destination
def cfunMessageGetPath := messageGet .path
def cfunMessageGetInterface := messageGet .interface
def cfunMessageGetMember := messageGet .member
def cfunMessageGetSender := messageGet .sender

/-- The public accessors. -/
def accessor : Target → SdBusMessage → Option Janet
  | .destination => cfunMessageGetDestination
  | .path => cfunMessageGetPath
  | .interface => cfunMessageGetInterface
  | .member => cfunMessageGetMember
  | .sender => cfunMessageGetSender

theorem accessor_isSome (target : Target) (m : SdBusMessage) :
    (accessor target m).isSome = (m.headers.get target).isSome := by
  cases target <;> exact Option.isSome_map

/-! ### The handler's effect -/

variable {rt} {m m' : SdBusMessage}

/-- The message with its cursor at the start. -/
def SdBusMessage.rewound (m : SdBusMessage) : SdBusMessage :=
  { m with reader := sealMessage m.reader.body }

/-- A message with this type and body, and nothing else. -/
def bare (type : MessageType) (body : List Item) : SdBusMessage :=
  { sdBusMessageNew type with reader := sealMessage body }

theorem rewind_ok {r : Reader} (hsealed : r.isSealed = true) :
    rewind rt r = .ok () (sealMessage r.body) := by
  obtain ⟨body, isSealed, stack⟩ := r
  obtain rfl : isSealed = true := hsealed
  rfl

theorem withCursor_rewind (hsealed : m.reader.isSealed = true) :
    withCursor (rewind rt) m = .ok () m.rewound := by
  rw [withCursor, rewind_ok hsealed]
  rfl

/-- The copy has the type and the body, whatever was read before; the message is rewound. -/
theorem messageCopy_ok (hsealed : m.reader.isSealed = true) :
    messageCopy rt m.type m = .ok (bare m.type m.reader.body) m.rewound := by
  have hcopy : sdBusMessageCopy (sdBusMessageNew m.type) m.rewound =
      .ok { sdBusMessageNew m.type with reader := ⟨m.reader.body, false, [[]]⟩ }
        { m with reader := ⟨m.reader.body, true, [[]]⟩ } := rfl
  simp only [messageCopy, bind, EStateM.bind, withCursor_rewind hsealed, hcopy]
  rw [withCursor_rewind rfl]
  rfl

/-- What is pushed for a message. -/
def pushed (kind : Kind) (m : SdBusMessage) : Pushed :=
  match m.type with
  | .methodReturn | .methodCall => if kind = .Call then .ref else .copy (bare m.type m.reader.body)
  | .signal => .ref
  | .methodError error => .error (formatError error)
  | .other => .nothing

/-- Is the message copied, and so rewound? -/
def copies (kind : Kind) (m : SdBusMessage) : Bool :=
  match m.type with
  | .methodReturn | .methodCall => decide (kind ≠ .Call)
  | _ => false

theorem receiving_get {α : Type} (f : SdBusMessage → Receiving α) (m : SdBusMessage) :
    (get >>= f) m = f m m := rfl

theorem receiving_bind {α β : Type} {x : Receiving α} {f : α → Receiving β} {a : α} {b : β}
    {m₁ m₂ : SdBusMessage} (hx : x m = .ok a m₁) (hf : f a m₁ = .ok b m₂) : (x >>= f) m = .ok b m₂ := by
  simp only [bind, EStateM.bind, hx, hf]

theorem messageHandler_ok (kind : Kind) (hsealed : m.reader.isSealed = true) :
    messageHandler rt kind m = .ok (pushed kind m) (if copies kind m then m.rewound else m) := by
  have hcopy : messageCopy rt m.type m = .ok (bare m.type m.reader.body) m.rewound :=
    messageCopy_ok hsealed
  rw [messageHandler, receiving_get]
  cases htype : m.type with
  | methodReturn =>
    rw [htype] at hcopy
    cases kind with
    | Call => simp [pushed, copies, htype]; rfl
    | Match =>
      simp only [pushed, copies, htype, reduceCtorEq, if_false]
      exact receiving_bind hcopy rfl
  | methodCall =>
    rw [htype] at hcopy
    cases kind with
    | Call => simp [pushed, copies, htype]; rfl
    | Match =>
      simp only [pushed, copies, htype, reduceCtorEq, if_false]
      exact receiving_bind hcopy rfl
  | methodError error => simp [pushed, copies, htype]; rfl
  | signal => simp [pushed, copies, htype]; rfl
  | other => simp [pushed, copies, htype]; rfl

/-- The object that a receiver takes from its channel. -/
def Pushed.object (received : SdBusMessage) : Pushed → Option SdBusMessage
  | .ref => some received
  | .copy new => some new
  | .error _ => none
  | .nothing => none

/-! ### Under the tuples of `Async` -/

/-- What `Async` knows of a message. -/
def SdBusMessage.abstract (m : SdBusMessage) : Async.Message := ⟨m.type, m.replyCookie⟩

def Pushed.tuple (received : SdBusMessage) : Pushed → Option Async.Tuple
  | .ref => some (.ok received.abstract)
  | .copy new => some (.ok new.abstract)
  | .error text => some (.error text)
  | .nothing => none

/-- The handler writes the tuple that `Async` says. -/
theorem pushed_tuple (kind : Kind) (hother : m.type ≠ .other) :
    (pushed kind m).tuple m = some (Async.handlerTuple kind m.abstract) := by
  have habstract : m.abstract.type = m.type := rfl
  rw [Async.handlerTuple, pushed, habstract]
  cases htype : m.type with
  | methodReturn => cases kind <;> simp [Pushed.tuple, SdBusMessage.abstract, bare, sdBusMessageNew, Async.messageCopy, htype]
  | methodCall => cases kind <;> simp [Pushed.tuple, SdBusMessage.abstract, bare, sdBusMessageNew, Async.messageCopy, htype]
  | methodError error => rfl
  | signal => rfl
  | other => exact absurd htype hother

/-! ### Faithful delivery -/

/-- The object is the message as it was received, at its start and with every accessor defined, and the
    received message is left at its start. -/
structure Faithful (m m' obj : SdBusMessage) : Prop where
  type : obj.type = m.type
  body : obj.reader = sealMessage m.reader.body
  headers : obj.headers = m.headers
  rewound : m'.reader = sealMessage m.reader.body
  defined : ∀ target, (accessor target obj).isSome = true

/-- The handler of a match pushes an object that is faithful to the message. -/
def FaithfullyDelivered (rt : Runtime) (m : SdBusMessage) : Prop :=
  ∃ d m' obj, messageHandler rt .Match m = .ok d m' ∧ d.object m' = some obj ∧ Faithful m m' obj

/-- A matched message is delivered faithfully exactly when it is a signal with all five headers whose
    cursor is at the start. -/
theorem faithful_iff (rt : Runtime) {m : SdBusMessage} (hsealed : m.reader.isSealed = true)
    (htype : m.type = .signal ∨ m.type = .methodCall ∨ m.type = .methodReturn) :
    FaithfullyDelivered rt m ↔
      m.type = .signal ∧ (∀ target, (m.headers.get target).isSome = true) ∧
        m.reader.stack = [m.reader.body] := by
  constructor
  · rintro ⟨d, m', obj, hd, hobj, hfaithful⟩
    rw [messageHandler_ok _ hsealed] at hd
    obtain ⟨rfl, rfl⟩ : pushed .Match m = d ∧ (if copies .Match m then m.rewound else m) = m' := by
      simpa using hd
    have hbare : m.type ≠ .signal → obj = bare m.type m.reader.body := by
      intro hno
      rcases htype with ht | ht | ht
      · exact absurd ht hno
      · simpa [pushed, ht, Pushed.object] using hobj.symm
      · simpa [pushed, ht, Pushed.object] using hobj.symm
    -- a copy has no headers, and its accessors convert NULL
    have hsignal : m.type = .signal := by
      by_contra hno
      have hdefined := hfaithful.defined .path
      rw [hbare hno, accessor_isSome] at hdefined
      simp [bare, sdBusMessageNew, Headers.get] at hdefined
    have hself : obj = m := by simpa [pushed, copies, hsignal, Pushed.object] using hobj.symm
    subst hself
    refine ⟨hsignal, fun target => ?_, ?_⟩
    · rw [← accessor_isSome]
      exact hfaithful.defined target
    · exact congrArg Reader.stack hfaithful.body
  · rintro ⟨hsignal, hheaders, hstart⟩
    have hreader : m.reader = sealMessage m.reader.body := by
      rw [sealMessage, ← hstart, ← hsealed]
    have hpushed : pushed .Match m = .ref := by rw [pushed, hsignal]
    have hcopies : copies .Match m = false := by rw [copies, hsignal]
    refine ⟨.ref, m, m, ?_, rfl, rfl, hreader, rfl, hreader, fun target => ?_⟩
    · rw [messageHandler_ok _ hsealed, hpushed, hcopies]
      rfl
    · rw [accessor_isSome]
      exact hheaders target

theorem nul_notMem_slash : (0 : UInt8) ∉ [47] := fun h => absurd (List.mem_singleton.mp h) (by decide)

def slash : CString := ⟨[47], nul_notMem_slash⟩

/-- A call of two numbers; every header is there. -/
def addCall : SdBusMessage where
  type := .methodCall
  replyCookie := none
  headers :=
    { sender := some slash
      destination := some slash
      path := some slash
      interface := some slash
      member := some slash }
  reader := sealMessage [.basic (.int32 1), .basic (.int32 2)]

/-- The copy that a match gets of a method call has no headers. -/
theorem addCall_unfaithful : ¬ ∀ (rt : Runtime) (m : SdBusMessage), m.reader.isSealed = true →
    (m.type = .signal ∨ m.type = .methodCall ∨ m.type = .methodReturn) → FaithfullyDelivered rt m := by
  intro h
  obtain ⟨d, m', obj, hd, hobj, hfaithful⟩ := h silentRuntime addCall rfl (.inr (.inl rfl))
  rw [messageHandler_ok _ rfl] at hd
  obtain ⟨rfl, rfl⟩ : pushed .Match addCall = d ∧ _ = m' := by simpa using hd
  obtain rfl : bare .methodCall addCall.reader.body = obj := Option.some.inj hobj
  have hmember := congrArg Headers.member hfaithful.headers
  simp [bare, sdBusMessageNew, addCall] at hmember

/-- A signal sent to one receiver. -/
def unicastSignal : SdBusMessage := { addCall with type := .signal }

theorem faithful_iff_signal : FaithfullyDelivered silentRuntime unicastSignal := by
  refine (faithful_iff silentRuntime rfl (.inl rfl)).mpr ⟨rfl, fun target => ?_, rfl⟩
  cases target <;> rfl

end JanetSdbus.Delivery
