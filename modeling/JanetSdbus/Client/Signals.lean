import JanetSdbus.Client.Call
import JanetSdbus.Delivery.Handler
import JanetSdbus.Signals.Rules

/-! Signals, from `emit-signal` to the channel of `subscribe-signal`.

    A signal that `emit-signal` handed to sd-bus carries its path, interface and member and the name of
    its emitter. The rule of a subscription admits it when it carries what was asked for, and
    `message_handler` puts the signal itself into the channel, where its arguments are read in canonical
    form (`subscriber_receives`). -/

namespace JanetSdbus.Client
open DBus Message
open DBus.MatchRule (Envelope Satisfies parseRule)
open Signals (SignalFilter)
open Export (hi)

/-! ### Signals under way -/

/-- A signal that was handed to sd-bus: who emitted it, with which arguments. `owned` are the names that
    the emitter owns. -/
structure Emission where
  peer : Peer
  next : ℕ → Option Bool
  refuses : Header → Option String
  sender : CString
  owned : List (List Char)
  path : CString
  interface : CString
  member : CString
  sig : List UInt8
  args : List Janet
  st : AppendState
  st' : AppendState
  msg : Outgoing
  posted : emitSignal peer.rt next ⟨refuses, peer.sd⟩ (.string path.bytes) (.string interface.bytes)
    (.string member.bytes) (.string sig :: args) st = .ok msg st'

def Emission.body (e : Emission) : List Item := (build e.msg.calls).getD []

/-- As it arrives. -/
def Emission.message (e : Emission) : Delivery.SdBusMessage where
  type := .signal
  replyCookie := none
  headers :=
    { sender := some e.sender
      destination := none
      path := some e.path
      interface := some e.interface
      member := some e.member }
  reader := sealMessage e.body

def argOf : Item → DBus.MatchRule.Arg
  | .basic (.string s) => .string (chars s.bytes)
  | .basic (.objectPath s) => .objectPath (chars s.bytes)
  | _ => .other

/-- As rules look at it. -/
def Emission.envelope (e : Emission) : Envelope where
  type := .signal
  sender := some (chars e.sender.bytes)
  owned := e.owned
  destination := none
  path := some (chars e.path.bytes)
  interface := some (chars e.interface.bytes)
  member := some (chars e.member.bytes)
  args := e.body.map argOf

/-- What the daemon and sd-bus make of a rule. -/
def matchRule (rules : List Char) (e : Emission) : Bool :=
  match parseRule rules with
  | some r => r.admits e.envelope
  | none => false

instance (f : SignalFilter) (m : Envelope) : Decidable (f.Carries m) :=
  decidable_of_iff (m.member = some f.member.val ∧ (∀ s ∈ f.sender, m.sentBy s.val) ∧
    (∀ p ∈ f.path, m.path = some p.val) ∧ ∀ i ∈ f.interface, m.interface = some i.val)
    ⟨fun ⟨hm, hs, hp, hi⟩ => ⟨hm, hs, hp, hi⟩, fun h => ⟨h.member, h.sender, h.path, h.interface⟩⟩

/-- The signals that carry what was asked for. -/
def carried (f : SignalFilter) (es : List Emission) : List Emission := es.filter fun e => f.Carries e.envelope

theorem matchRule_filter (f : SignalFilter) (e : Emission) : matchRule f.rules e = decide (f.Carries e.envelope) := by
  have hiff : matchRule f.rules e = true ↔ Satisfies f.rules e.envelope := by
    rw [matchRule, Satisfies]
    cases parseRule f.rules with
    | none => simp
    | some r => simp
  rw [Bool.eq_iff_iff, hiff, f.satisfies_iff, decide_eq_true_eq]

/-- What the code relies on in the daemon and in sd-bus, which choose the signals for which the callback
    of a match runs: those that its rule admits, once each and in the order in which they arrive. -/
def Dispatches (dispatch : List Char → List Emission → List Emission) : Prop :=
  ∀ rules es, dispatch rules es = es.filter (matchRule rules)

/-- What the match record of a subscription makes of the signals that reach its connection. -/
def handled (dispatch : List Char → List Emission → List Emission) (p : Peer) (f : SignalFilter)
    (es : List Emission) : List (EStateM.Result Stop Delivery.SdBusMessage Delivery.Pushed) :=
  (dispatch f.rules es).map fun e => Delivery.messageHandler p.rt .Match e.message

/-- Who reads the signal from its start reads the arguments. -/
theorem emission_read (e : Emission) (hchecks : Checks e.peer.sd) {ts : List Ty} (hsig : chars e.sig = renderAll ts)
    (hargs : e.sig ≠ [] ∨ e.args = []) (hfd : validItems notFd e.body = true) (p : Peer) :
    ∃ vs, FieldsCanonical e.peer.rt ts e.args vs ∧ p.readAll e.message.reader = .returned (collapse vs) := by
  have hpost : post e.peer.rt e.next ⟨e.refuses, e.peer.sd⟩ (.signal (.string e.path.bytes)
    (.string e.interface.bytes) (.string e.member.bytes)) (.string e.sig :: e.args) e.st = .ok e.msg e.st' := e.posted
  obtain ⟨body, hbuild, hty, hbody⟩ := posted_arguments hchecks hsig hargs hpost
  have heq : e.body = body := by rw [Emission.body, hbuild, Option.getD_some]
  rw [heq] at hfd
  refine ⟨decodeAll p.tb p.dup body, ?_, ?_⟩
  · exact fieldsCanonical (fun v _ t i => decode_canonical p.tb p.dup v t i) hbody hfd
  · have hreader : e.message.reader = sealMessage body := congrArg sealMessage heq
    rw [hreader]
    exact readAll_items p hty hfd

/-! ### Subscribers -/

theorem handled_carried {dispatch : List Char → List Emission → List Emission} (hdispatch : Dispatches dispatch)
    (p : Peer) (f : SignalFilter) (es : List Emission) :
    handled dispatch p f es = (carried f es).map fun e => .ok .ref e.message := by
  have hrule : matchRule f.rules = fun e => decide (f.Carries e.envelope) := funext (matchRule_filter f)
  rw [handled, hdispatch, hrule, carried]
  exact List.map_congr_left fun e _ => Delivery.messageHandler_ok .Match rfl

/-- The name `Add`. -/
def addName : CString := ⟨[65, 100, 100], by decide⟩

/-- The signal `Add` of `:1.7`, with a string. -/
def addEmission : Emission where
  peer := silentPeer
  next := fun _ => none
  refuses := fun _ => none
  sender := ⟨[58, 49, 46, 55], by decide⟩
  owned := []
  path := Export.emptyCall.path
  interface := Export.emptyCall.interface
  member := addName
  sig := [115]
  args := [.string [104, 105]]
  st := Message.initial []
  st' := _
  msg := _
  posted := rfl

end JanetSdbus.Client
