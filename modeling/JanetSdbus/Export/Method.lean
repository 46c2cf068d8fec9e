import JanetSdbus.Message.RoundTrip
import JanetSdbus.Schemes.Fiber

/-! Exported methods: `method` of `init.janet` and `method_handler` of `export.c`.

    The function that `sdbus/method` wraps is a fiber for each list of arguments. sd-bus calls the C
    handler, which runs the wrapper to its first suspension; the event loop runs the rest. A reply
    may come from the wrapper, from its catch clause, or from sd-bus when the handler fails. -/

namespace JanetSdbus.Export
open DBus Message Schemes

/-- What is sent while a call is served: replies to it, and messages of another kind. -/
inductive Sent where
  | methodReturn (body : Option (List Item))
  | methodError (name message : List UInt8)
  | other (n : ℕ)

def isReply : Sent → Bool
  | .other _ => false
  | _ => true

/-- A method call as sd-bus dispatches it; it has a path and an interface. -/
structure MethodCall where
  message : Reader
  path : CString
  interface : CString

/-- The dynamic bindings `:sdbus/bus`, `:sdbus/path` and `:sdbus/interface`. -/
structure Dyns where
  bus : Janet
  path : Janet
  interface : Janet

abbrev JanetFiber := Fiber Janet Janet Sent

/-- The function that is wrapped. It does not have the call, so it sends no reply to it. -/
abbrev Function := Dyns → List Janet → Fiber Janet Janet ℕ Janet

def janetString (s : String) : Janet := .string s.toUTF8.data.toList

/-- A function of the library in a fiber. -/
def ofStop {α : Type} : Stop → JanetFiber α
  | .panic msg => .raise (janetString msg)
  | .fault => .abort
  | .deep => .abort

section wrapper
variable (rt : Runtime) (tb : Tables) (dup : ℤ → Except String ℤ) (sd : SdBus) (st : AppendState)

/-- The pattern match: `nil`, then any array or tuple, then anything. -/
def normalize : Janet → List Janet
  | .nil => []
  | .array xs => xs
  | .tuple xs => xs
  | x => [x]

def normalizedRead (msg : Reader) : JanetFiber (List Janet) :=
  match cfunMessageRead rt tb dup .all msg with
  | .ok v _ => .ret (normalize v)
  | .error e _ => ofStop e

/-- `message-append` to a new reply, in the state `st` of memory and error context. -/
def messageAppend (signature : List UInt8) (args : List Janet) : JanetFiber (List Call) :=
  match cfunMessageAppend rt sd (.string signature) args { st with calls := [] } with
  | .ok _ st' => .ret st'.calls
  | .error e _ => ofStop e

/-- `message-new-method-error` and `message-send`; the message must be a C string. -/
def sendError (err : Janet) : JanetFiber Unit :=
  match err with
  | .string bs =>
    match janetGetcbytes bs with
    | none => .raise (janetString "string contains embedded 0s")
    | some s => .emit (.methodError "org.janet.error".toUTF8.data.toList s.bytes) (.ret ())
  | _ => .raise (janetString ("bad slot #2, expected string, got " ++ rt.format_v err))

theorem sendError_cstring {err : Janet} {s : CString} (h : err.cstring = some s) :
    sendError rt err = .emit (.methodError "org.janet.error".toUTF8.data.toList s.bytes) (.ret ()) := by
  cases err with
  | string bs =>
    rw [Janet.cstring] at h
    rw [sendError, h]
  | _ => exact absurd h (by simp [Janet.cstring])

theorem sendError_other {err : Janet} (h : err.cstring = none) : ∃ e, sendError rt err = .raise e := by
  cases err with
  | string bs =>
    rw [Janet.cstring] at h
    rw [sendError, h]
    exact ⟨_, rfl⟩
  | _ => exact ⟨_, rfl⟩

/-- What the wrapper does with the result. -/
def answer (outSignature : List UInt8) (result : Janet) : JanetFiber Unit :=
  (if outSignature = [] then .ret [] else messageAppend rt sd st outSignature [result]).bind
    fun calls => .emit (.methodReturn (build calls)) (.ret ())

/-- The body of the `try` form. -/
def methodBody (fn : Function) (outSignature : List UInt8) (bus : Janet) (msg : MethodCall) :
    JanetFiber Unit :=
  (normalizedRead rt tb dup msg.message).bind fun args =>
    ((fn ⟨bus, .string msg.path.bytes, .string msg.interface.bytes⟩ args).mapOut .other).bind
      (answer rt sd st outSignature)

def methodWrapper (fn : Function) (outSignature : List UInt8) (bus : Janet) (msg : MethodCall) :
    JanetFiber Unit :=
  (methodBody rt tb dup sd st fn outSignature bus msg).tryCatch fun err =>
    (sendError rt err).bind fun _ => .raise err

end wrapper

/-! ### The C handler -/

/-- What is sent for a call in all: before the handler returns, by sd-bus if the handler fails, and
    by the fiber when the event loop resumes it with `inp`. -/
def methodHandler (janetToString : Janet → List UInt8) (f : JanetFiber Unit) (inp : ℕ → Janet) :
    List Sent :=
  match f.pcall with
  | (os, .done (.raised err)) =>
    os ++ [.methodError "org.janet.error".toUTF8.data.toList
      ("internal method error: ".toUTF8.data.toList ++ janetToString err)]
  | (os, .done _) => os
  | (os, .event k) => os ++ Fiber.outs ((k (inp 0)).run fun n => inp (n + 1)).1

def replies (os : List Sent) : ℕ := (os.filter isReply).length

theorem replies_append (os ps : List Sent) : replies (os ++ ps) = replies os + replies ps := by
  rw [replies, List.filter_append, List.length_append]
  rfl

theorem replies_other (ns : List ℕ) : replies (ns.map .other) = 0 := by
  induction ns with
  | nil => rfl
  | cons n ns ih => exact ih

/-- The replies of a run, and one more if it raised before it was suspended. -/
theorem replies_methodHandler (toStr : Janet → List UInt8) (f : JanetFiber Unit) (inp : ℕ → Janet) :
    replies (methodHandler toStr f inp) = replies (Fiber.outs (f.run inp).1) +
      match (f.run inp).2 with
      | .raised _ => if Fiber.pauses (f.run inp).1 = 0 then 1 else 0
      | _ => 0 := by
  have hrun := f.pcall_run inp
  rw [methodHandler]
  split at hrun
  · next os e h =>
    obtain ⟨houts, hpauses, hend⟩ := hrun
    cases e with
    | raised err =>
      simp only [h, houts, hpauses, hend, replies_append]
      rfl
    | _ =>
      simp only [h, houts, hend]
      rfl
  · next os k h =>
    obtain ⟨hpauses, houts, hend⟩ := hrun
    have hne : Fiber.pauses (f.run inp).1 ≠ 0 := Nat.ne_of_gt hpauses
    simp only [h, houts, hend, if_neg hne]
    cases ((k (inp 0)).run fun n => inp (n + 1)).2 <;> rfl

/-! ### One reply -/

section replies
variable {rt : Runtime} {tb : Tables} {dup : ℤ → Except String ℤ} {sd : SdBus} {st : AppendState}
variable {outSignature : List UInt8}

/-- An error that gets one answer: from sd-bus if it is no C string and nothing was suspended, from
    the catch clause if it is one and something was. -/
def AnsweredOnce (err : Janet) (pauses : ℕ) : Prop := err.cstring.isSome = true ↔ 0 < pauses

def stopAnswered : Stop → ℕ → Prop
  | .panic msg, n => AnsweredOnce (janetString msg) n
  | _, _ => False

variable (rt tb dup sd st outSignature) in
/-- The call is served properly: the function returns a value that is accepted for the signature, or
    the error that ends the body gets one answer. -/
def Settles (fn : Function) (bus : Janet) (msg : MethodCall) (inp : ℕ → Janet) : Prop :=
  match cfunMessageRead rt tb dup .all msg.message with
  | .error e _ => stopAnswered e 0
  | .ok v _ =>
    let t := (fn ⟨bus, .string msg.path.bytes, .string msg.interface.bytes⟩ (normalize v)).run inp
    match t.2 with
    | .aborted => False
    | .raised err => AnsweredOnce err (Fiber.pauses t.1)
    | .returned result =>
      if outSignature = [] then True
      else match cfunMessageAppend rt sd (.string outSignature) [result] { st with calls := [] } with
        | .ok _ _ => True
        | .error e _ => stopAnswered e (Fiber.pauses t.1)

/-- The method returns that a body has sent when it ends. -/
def returns {α : Type} : Fiber.Ending Janet α → ℕ
  | .returned _ => 1
  | _ => 0

/-- What the ending of a run says of its answers. -/
def EndsWell {α : Type} : List (Fiber.Event Sent) × Fiber.Ending Janet α → Prop
  | (_, .returned _) => True
  | (es, .raised err) => AnsweredOnce err (Fiber.pauses es)
  | (_, .aborted) => False

theorem bind_ofStop {α β : Type} (e : Stop) (g : α → JanetFiber β) : (ofStop e).bind g = ofStop e := by
  cases e <;> rfl

/-- A run that ends with a stop of the library. -/
theorem run_ofStop {α : Type} (e : Stop) (inp : ℕ → Janet) :
    ((ofStop e : JanetFiber α).run inp).1 = [] ∧
      returns ((ofStop e : JanetFiber α).run inp).2 = 0 ∧
      ∀ es, EndsWell (es, ((ofStop e : JanetFiber α).run inp).2) ↔ stopAnswered e (Fiber.pauses es) := by
  cases e <;> exact ⟨rfl, rfl, fun _ => Iff.rfl⟩

variable (rt tb dup sd st outSignature) in
/-- The body replies once if it returns and not at all otherwise. -/
theorem run_methodBody (fn : Function) (bus : Janet) (msg : MethodCall) (inp : ℕ → Janet) :
    replies (Fiber.outs ((methodBody rt tb dup sd st fn outSignature bus msg).run inp).1) =
      returns ((methodBody rt tb dup sd st fn outSignature bus msg).run inp).2 ∧
    (EndsWell ((methodBody rt tb dup sd st fn outSignature bus msg).run inp) ↔
      Settles rt tb dup sd st outSignature fn bus msg inp) := by
  rw [methodBody, normalizedRead, Settles]
  cases hread : cfunMessageRead rt tb dup .all msg.message with
  | error e r =>
    cases e with
    | panic text => exact ⟨rfl, Iff.rfl⟩
    | fault => exact ⟨rfl, Iff.rfl⟩
    | deep => exact ⟨rfl, Iff.rfl⟩
  | ok v r =>
    simp only [Fiber.bind]
    generalize fn ⟨bus, .string msg.path.bytes, .string msg.interface.bytes⟩ (normalize v) = f
    obtain ⟨houts, hpauses, hend⟩ := Fiber.run_mapOut Sent.other f inp
    rw [Fiber.run_bind]
    have hsplit : (f.mapOut Sent.other).run inp =
        (((f.mapOut Sent.other).run inp).1, (f.run inp).2) := by rw [← hend]
    rw [hsplit]
    cases (f.run inp).2 with
    | aborted => exact ⟨by rw [houts, replies_other]; rfl, Iff.rfl⟩
    | raised err => exact ⟨by rw [houts, replies_other]; rfl, by rw [EndsWell, hpauses]⟩
    | returned result =>
      simp only [answer]
      split
      · exact ⟨by simp [Fiber.bind, Fiber.run, Fiber.outs, houts, replies_append, replies_other]; rfl,
          Iff.rfl⟩
      · rw [messageAppend]
        split
        · exact ⟨by simp [Fiber.bind, Fiber.run, Fiber.outs, houts, replies_append, replies_other]; rfl,
            Iff.rfl⟩
        · next e _ _ =>
          rw [bind_ofStop]
          obtain ⟨hnone, hzero, hwell⟩ := run_ofStop (α := Unit) e fun n =>
            inp (n + Fiber.pauses ((f.mapOut Sent.other).run inp).1)
          rw [hnone, List.append_nil, hzero, hwell, hpauses, houts, replies_other]
          exact ⟨rfl, Iff.rfl⟩

variable (rt) in
/-- The catch clause answers an error that is a C string, and raises in any case. -/
theorem run_catch (err : Janet) (inp : ℕ → Janet) :
    let t := ((sendError rt err).bind fun _ => .raise err : JanetFiber Unit).run inp
    (∃ e, t.2 = .raised e) ∧ Fiber.pauses t.1 = 0 ∧
      replies (Fiber.outs t.1) = if err.cstring.isSome = true then 1 else 0 := by
  cases hc : err.cstring with
  | none =>
    obtain ⟨e, he⟩ := sendError_other rt hc
    rw [he]
    exact ⟨⟨_, rfl⟩, rfl, rfl⟩
  | some s =>
    rw [sendError_cstring rt hc]
    exact ⟨⟨_, rfl⟩, rfl, rfl⟩

/-- The replies of the wrapper and of sd-bus together: a call gets exactly one if and only if it is served properly. -/
theorem methodHandler_one_reply_iff (rt : Runtime) (tb : Tables) (dup : ℤ → Except String ℤ)
    (sd : SdBus) (st : AppendState) (toStr : Janet → List UInt8) (fn : Function)
    (outSignature : List UInt8) (bus : Janet) (msg : MethodCall) (inp : ℕ → Janet) :
    replies (methodHandler toStr (methodWrapper rt tb dup sd st fn outSignature bus msg) inp) = 1 ↔
      Settles rt tb dup sd st outSignature fn bus msg inp := by
  have hbody := run_methodBody rt tb dup sd st outSignature fn bus msg inp
  rw [replies_methodHandler, methodWrapper, Fiber.run_tryCatch, ← hbody.2]
  have hreplies := hbody.1
  generalize (methodBody rt tb dup sd st fn outSignature bus msg).run inp = t at hreplies
  obtain ⟨es, e⟩ := t
  cases e with
  | returned u => exact iff_of_true (by rw [hreplies]; rfl) trivial
  | aborted => exact iff_of_false (by rw [hreplies]; simp [returns]) id
  | raised err =>
    have hnone : replies (Fiber.outs es) = 0 := hreplies
    obtain ⟨⟨e, he⟩, hpauses, hcatch⟩ := run_catch rt err fun n => inp (n + Fiber.pauses es)
    rw [EndsWell, AnsweredOnce]
    simp only [he, Fiber.outs_append, replies_append, Fiber.pauses_append, hnone, hcatch, hpauses]
    cases err.cstring.isSome with
    | true =>
      simp only [if_pos, true_iff]
      split <;> omega
    | false =>
      simp only [Bool.false_eq_true, if_false, false_iff]
      split <;> omega

/-- A function that raises a string at once gets two replies. -/
theorem methodHandler_error_twice : replies (methodHandler (fun _ => [])
    (methodWrapper silentRuntime frontTables (fun _ => .error "") checkingBus (initial [])
      (fun _ _ => .raise (janetString "Test error")) [] .nil
      ⟨sealMessage [], ⟨[47], by decide⟩, ⟨[97, 46, 98], by decide⟩⟩) fun _ => .nil) = 2 := rfl

end replies

end JanetSdbus.Export
