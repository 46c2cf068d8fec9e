import JanetSdbus.Export.Arity
import JanetSdbus.Message.Outgoing
import JanetSdbus.Schemes.Exchange

/-! `call-method`, from its arguments to its outcome.

    The caller appends its arguments to a message and takes from its channel what `message_handler`
    makes of the first reply. At the other end `method_handler` runs the wrapper of an exported
    function. `caller_sees` says what the caller gets of an ending of that function, `call_returns`
    that a call that is answered is a call of the function itself, up to the canonical forms of the
    arguments and of the result, and `run_sees` that other calls, whatever the order of the steps, do
    not change it. -/

namespace JanetSdbus.Client
open DBus Message Export Schemes

/-- One end of a connection. -/
structure Peer where
  rt : Runtime
  tb : Tables
  dup : ℤ → Except String ℤ
  sd : SdBus

def utf8 (s : String) : List UInt8 := s.toUTF8.data.toList

/-- How `call-method` ends. -/
abbrev Outcome := Fiber.Ending Janet Janet

def stopped {α : Type} : Stop → Fiber.Ending Janet α
  | .panic msg => .raised (janetString msg)
  | .fault => .aborted
  | .deep => .aborted

/-! ### The caller -/

/-- `format_error`: an error has a name, and a message unless it is NULL. -/
def formatError (name : List UInt8) : Option (List UInt8) → List UInt8
  | some message => utf8 "D-Bus error: " ++ name ++ utf8 ": " ++ message
  | none => utf8 "D-Bus error: " ++ name

/-- What `ev/take` returns. -/
inductive Taken where
  | ok (msg : Reader)
  | error (err : List UInt8)
  | close

/-- `(message-read msg :all)`. -/
def Peer.readAll (p : Peer) (msg : Reader) : Outcome :=
  match cfunMessageRead p.rt p.tb p.dup .all msg with
  | .ok v _ => .returned v
  | .error e _ => stopped e

/-- The `match` form of `call-method`. -/
def Peer.callMethodResult (p : Peer) : Taken → Outcome
  | .ok msg => p.readAll msg
  | .error err => .raised (.string err)
  | .close => .raised (janetString "D-Bus connection closed")

/-- The message of an error as sd-bus hands it out to the caller: it need not be valid UTF-8. -/
abbrev ErrorText := List UInt8 → Option (List UInt8)

/-- What the handler of a call puts into its channel. -/
def taken (text : ErrorText) : Sent → Option Taken
  | .methodReturn body => body.map fun is => .ok (sealMessage is)
  | .methodError name message => some (.error (formatError name (text message)))
  | .other _ => none

def Peer.outcome (p : Peer) (text : ErrorText) (o : Sent) : Option Outcome :=
  (taken text o).map p.callMethodResult

/-! ### The server -/

/-- What `method_handler` finds when the call comes in: the functions of an interface may share state. -/
structure Found where
  fn : Function
  outSignature : List UInt8
  bus : Janet
  st : AppendState

def janetError : List UInt8 := utf8 "org.janet.error"

/-- What `sd_bus_error_setf` makes of an error. -/
def internalError (toStr : Janet → List UInt8) (err : Janet) : Sent :=
  .methodError janetError (utf8 "internal method error: " ++ toStr err)

/-- `method_handler`, and the fiber that it leaves to the event loop. -/
def serve (toStr : Janet → List UInt8) (f : JanetFiber Unit) : Exchange.Service Janet Janet Sent :=
  match f.pcall with
  | (os, .done (.raised err)) => ⟨os ++ [internalError toStr err], none⟩
  | (os, .done _) => ⟨os, none⟩
  | (os, .event k) => ⟨os, some k⟩

def Peer.wrapper (p : Peer) (found : Found) (msg : MethodCall) : JanetFiber Unit :=
  methodWrapper p.rt p.tb p.dup p.sd found.st found.fn found.outSignature found.bus msg

def Peer.service (p : Peer) (toStr : Janet → List UInt8) (msg : MethodCall) (found : Found) :
    Exchange.Service Janet Janet Sent :=
  serve toStr (p.wrapper found msg)

/-- The reply with the result, as the calls that build it. -/
def Peer.append (p : Peer) (found : Found) (result : Janet) : Fiber.Ending Janet (List Call) :=
  if found.outSignature = [] then .returned []
  else match cfunMessageAppend p.rt p.sd (.string found.outSignature) [result] { found.st with calls := [] } with
    | .ok _ st' => .returned st'.calls
    | .error e _ => stopped e

def afterFunction (append : Janet → Fiber.Ending Janet (List Call)) :
    Outcome → Fiber.Ending Janet (List Call)
  | .returned result => append result
  | .raised err => .raised err
  | .aborted => .aborted

/-- The function, called with the contents of the message. -/
def Peer.runFunction (p : Peer) (found : Found) (msg : MethodCall) (inp : ℕ → Janet) :
    ℕ × Fiber.Ending Janet (List Call) :=
  match cfunMessageRead p.rt p.tb p.dup .all msg.message with
  | .error e _ => (0, stopped e)
  | .ok v _ =>
    let t := (found.fn ⟨found.bus, .string msg.path.bytes, .string msg.interface.bytes⟩ (normalize v)).run inp
    (Fiber.pauses t.1, afterFunction (p.append found) t.2)

/-- What a caller may get for a function that ends like this, after some suspensions. Nothing is said
    of a function that leaves what Janet defines. -/
def Sees (caller : Peer) (text : ErrorText) (pauses : ℕ) :
    Fiber.Ending Janet (List Call) → Option Outcome → Prop
  | .returned calls, seen => seen = (build calls).map fun body => caller.readAll (sealMessage body)
  | .raised err, seen =>
    match err.cstring with
    | some s => seen = some (.raised (.string (formatError janetError (text s.bytes))))
    | none =>
      -- sd-bus answers only if the handler fails, and it does not if the fiber is suspended
      if pauses = 0 then ∃ m, seen = some (.raised (.string (formatError janetError
        (text (utf8 "internal method error: " ++ m)))))
      else seen = none
  | .aborted, _ => True

/-! ### One call -/

variable {toStr : Janet → List UInt8} {f : JanetFiber Unit} {inp : ℕ → Janet}

theorem serve_outs : (serve toStr f).outs inp = methodHandler toStr f inp := by
  rw [serve, methodHandler, Exchange.Service.outs]
  rcases f.pcall with ⟨os, e | k⟩
  · cases e with
    | raised err => rfl
    | returned u => rfl
    | aborted => rfl
  · rfl

/-- The run of the fiber, and the error of sd-bus if it raises at once. -/
theorem methodHandler_run (toStr : Janet → List UInt8) (f : JanetFiber Unit) (inp : ℕ → Janet) :
    ∃ own, methodHandler toStr f inp = Fiber.outs (f.run inp).1 ++ own ∧
      ((∀ err, (f.run inp).2 ≠ .raised err) → own = []) ∧
      ∀ err, (f.run inp).2 = .raised err →
        own = if Fiber.pauses (f.run inp).1 = 0 then [internalError toStr err] else [] := by
  have hrun := f.pcall_run inp
  rw [methodHandler]
  split at hrun
  · next os e h =>
    obtain ⟨houts, hpauses, hend⟩ := hrun
    rw [h, houts, hpauses, hend]
    cases e with
    | raised err =>
      refine ⟨[internalError toStr err], rfl, fun hno => absurd rfl (hno err), ?_⟩
      intro err' herr
      obtain rfl := Fiber.Ending.raised.inj herr
      rfl
    | returned u =>
      refine ⟨[], (List.append_nil os).symm, fun _ => rfl, ?_⟩
      intro err herr
      cases herr
    | aborted =>
      refine ⟨[], (List.append_nil os).symm, fun _ => rfl, ?_⟩
      intro err herr
      cases herr
  · next os k h =>
    obtain ⟨hpauses, houts, hend⟩ := hrun
    refine ⟨[], ?_, fun _ => rfl, fun err herr => ?_⟩
    · rw [h, houts, List.append_nil]
    · rw [if_neg (Nat.ne_of_gt hpauses)]

/-- The method return that a body sends when it ends. -/
def methodReturnOf : Fiber.Ending Janet (List Call) → Option Sent
  | .returned calls => some (.methodReturn (build calls))
  | .raised _ => none
  | .aborted => none

def unitOf : Fiber.Ending Janet (List Call) → Fiber.Ending Janet Unit
  | .returned _ => .returned ()
  | .raised err => .raised err
  | .aborted => .aborted

/-- A run that stops after as many suspensions as `e` and ends like it. -/
structure RunsAs (t : List (Fiber.Event Sent) × Fiber.Ending Janet Unit)
    (e : ℕ × Fiber.Ending Janet (List Call)) : Prop where
  pauses : Fiber.pauses t.1 = e.1
  replied : (Fiber.outs t.1).find? isReply = methodReturnOf e.2
  ended : t.2 = unitOf e.2

theorem runsAs_ofStop (e : Stop) : RunsAs ((ofStop e : JanetFiber Unit).run inp) (0, stopped e) := by
  cases e with
  | panic msg => exact ⟨rfl, rfl, rfl⟩
  | fault => exact ⟨rfl, rfl, rfl⟩
  | deep => exact ⟨rfl, rfl, rfl⟩

theorem find_other (ns : List ℕ) : (ns.map Sent.other).find? isReply = none := by
  induction ns with
  | nil => rfl
  | cons n ns ih => exact ih

/-- After the function has returned. -/
theorem runsAs_answer (p : Peer) (found : Found) (result : Janet) :
    RunsAs ((answer p.rt p.sd found.st found.outSignature result).run inp) (0, p.append found result) := by
  rw [answer, Peer.append]
  split
  · exact ⟨rfl, rfl, rfl⟩
  · rw [messageAppend]
    cases cfunMessageAppend p.rt p.sd (.string found.outSignature) [result] { found.st with calls := [] } with
    | ok u st' => exact ⟨rfl, rfl, rfl⟩
    | error e st' =>
      simp only [bind_ofStop]
      exact runsAs_ofStop e

theorem runsAs_methodBody (p : Peer) (found : Found) (msg : MethodCall) (inp : ℕ → Janet) :
    RunsAs ((methodBody p.rt p.tb p.dup p.sd found.st found.fn found.outSignature found.bus msg).run inp)
      (p.runFunction found msg inp) := by
  rw [methodBody, normalizedRead, Peer.runFunction]
  cases cfunMessageRead p.rt p.tb p.dup .all msg.message with
  | error e r =>
    simp only [bind_ofStop]
    exact runsAs_ofStop e
  | ok v r =>
    simp only [Fiber.bind]
    generalize found.fn ⟨found.bus, .string msg.path.bytes, .string msg.interface.bytes⟩ (normalize v) = f
    obtain ⟨houts, hpauses, hend⟩ := Fiber.run_mapOut Sent.other f inp
    rw [Fiber.run_bind]
    have hsplit : (f.mapOut Sent.other).run inp =
        (((f.mapOut Sent.other).run inp).1, (f.run inp).2) := by rw [← hend]
    rw [hsplit]
    have hnone : (Fiber.outs ((f.mapOut Sent.other).run inp).1).find? isReply = none := by
      rw [houts, find_other]
    cases (f.run inp).2 with
    | aborted => exact ⟨hpauses, hnone, rfl⟩
    | raised err => exact ⟨hpauses, hnone, rfl⟩
    | returned result =>
      have hanswer : RunsAs ((answer p.rt p.sd found.st found.outSignature result).run fun n =>
        inp (n + Fiber.pauses ((f.mapOut Sent.other).run inp).1)) (0, p.append found result) :=
        runsAs_answer p found result
      refine ⟨?_, ?_, hanswer.ended⟩
      · rw [Fiber.pauses_append, hanswer.pauses, hpauses, Nat.add_zero]
      · rw [Fiber.outs_append, List.find?_append, hnone, Option.none_or, hanswer.replied]
        rfl

/-- The catch clause: it answers if the error is a C string, and raises in any case. -/
theorem run_catch_find (rt : Runtime) (err : Janet) (inp : ℕ → Janet) :
    ∃ es e, ((sendError rt err).bind fun _ => .raise err : JanetFiber Unit).run inp = (es, .raised e) ∧
      Fiber.pauses es = 0 ∧
      (Fiber.outs es).find? isReply = err.cstring.map fun s => .methodError janetError s.bytes := by
  cases hc : err.cstring with
  | none =>
    obtain ⟨e, he⟩ := sendError_other rt hc
    rw [he]
    exact ⟨_, _, rfl, rfl, rfl⟩
  | some s =>
    rw [sendError_cstring rt hc]
    exact ⟨_, _, rfl, rfl, rfl⟩

/-- The same with the catch clause and with sd-bus behind it. -/
theorem sees_of_runsAs (caller : Peer) (text : ErrorText) (rt : Runtime) (toStr : Janet → List UInt8)
    {e : ℕ × Fiber.Ending Janet (List Call)} (h : RunsAs (f.run inp) e) :
    Sees caller text e.1 e.2 (((methodHandler toStr
      (f.tryCatch fun err => (sendError rt err).bind fun _ => .raise err) inp).find? isReply).bind
        (caller.outcome text)) := by
  have hrun := f.run_tryCatch (fun err => (sendError rt err).bind fun _ => .raise err) inp
  obtain ⟨own, hall, hnone, hown⟩ := methodHandler_run toStr
    (f.tryCatch fun err => (sendError rt err).bind fun _ => .raise err) inp
  rcases hf : f.run inp with ⟨es, ending⟩
  rcases e with ⟨pauses, e⟩
  rw [hf] at h hrun
  obtain ⟨hpauses, hreplied, hended⟩ := h
  dsimp only at hpauses hreplied hended
  subst hpauses hended
  rw [hall, List.find?_append]
  cases e with
  | aborted => trivial
  | returned calls =>
    simp only [unitOf] at hrun
    rw [hrun, hreplied]
    simp only [methodReturnOf, Option.some_or, Option.bind_some, Peer.outcome, taken, Option.map_map]
    rfl
  | raised err =>
    simp only [unitOf] at hrun
    obtain ⟨fs, last, hcatch, hzero, hfound⟩ := run_catch_find rt err fun n => inp (n + Fiber.pauses es)
    rw [hcatch] at hrun
    have hpauses : Fiber.pauses (es ++ fs) = Fiber.pauses es := by
      rw [Fiber.pauses_append, hzero, Nat.add_zero]
    have hown := hown last (by rw [hrun])
    rw [hrun, hpauses] at hown
    rw [hrun, Fiber.outs_append, List.find?_append, hreplied, methodReturnOf, Option.none_or, hfound, hown]
    cases hc : err.cstring with
    | some s =>
      simp only [Sees, hc]
      rfl
    | none =>
      simp only [Sees, hc, Option.map_none, Option.none_or]
      by_cases hfirst : Fiber.pauses es = 0
      · simp only [if_pos hfirst]
        exact ⟨toStr last, rfl⟩
      · simp only [if_neg hfirst]
        rfl

/-- What the caller gets for the function. -/
theorem caller_sees (caller server : Peer) (text : ErrorText) (toStr : Janet → List UInt8) (found : Found)
    (msg : MethodCall) (inp : ℕ → Janet) :
    Sees caller text (server.runFunction found msg inp).1 (server.runFunction found msg inp).2
      ((((server.service toStr msg found).outs inp).find? isReply).bind (caller.outcome text)) := by
  rw [Peer.service, serve_outs]
  exact sees_of_runsAs caller text server.rt toStr (runsAs_methodBody server found msg inp)

/-! ### A call and its answer -/

/-- A message that the caller posts, as the server receives it. -/
def received (body : List Item) (path interface : CString) : MethodCall := ⟨sealMessage body, path, interface⟩

/-- The arguments of a message that was posted, and what the server calls its function with. -/
theorem posted_arguments {caller : Peer} {next : ℕ → Option Bool} {bus : Bus} (hbus : Checks bus.sd)
    {h : Header} {sig : List UInt8} {ts : List Ty} (hsig : chars sig = renderAll ts) {args : List Janet}
    (hargs : sig ≠ [] ∨ args = []) {st st' : AppendState} {msg : Outgoing}
    (hpost : post caller.rt next bus h (.string sig :: args) st = .ok msg st') :
    ∃ body, build msg.calls = some body ∧ Item.HaveTys ts body ∧ denoteFields caller.rt ts args = some body := by
  obtain ⟨-, rfl, happend⟩ := run_post.mp hpost
  split at happend
  · next hnil =>
    obtain rfl := hargs.resolve_left (not_not.mpr hnil)
    obtain rfl : ts = [] := renderAll_inj (by rw [← hsig, hnil]; rfl)
    subst happend
    exact ⟨[], rfl, .nil, rfl⟩
  · obtain ⟨us, body, hus, hlen, hbody, hty, hbuild⟩ := carries_append hbus happend
    obtain rfl := renderAll_inj (hsig.symm.trans hus)
    exact ⟨body, hbuild, hty, hbody⟩

/-- The arguments are the contents of the message, unless a single one is spread. -/
theorem normalize_all (tb : Tables) {dup : ℤ → Except String ℤ} {ts : List Ty} {body : List Item}
    (hty : Item.HaveTys ts body) (hread : validItems (readable dup) body = true)
    (hspread : ¬ ∃ t, ts = [t] ∧ Spreads t = true) :
    normalize (collapse (decodeAll tb dup body)) = decodeAll tb dup body := by
  by_cases hone : ts.length = 1
  · obtain ⟨t, rfl⟩ := List.length_eq_one_iff.mp hone
    have ht : Spreads t = false := by
      cases h : Spreads t with
      | true => exact absurd ⟨t, rfl, h⟩ hspread
      | false => rfl
    cases hty with
    | cons _ _ i _ hi his =>
      cases his with
      | nil =>
        rw [validItems, validItems, Bool.and_true] at hread
        rw [decodeAll, decodeAll]
        exact normalize_decode hi ht hread
  · exact normalize_collapse (by rw [decodeAll_length, ← haveTys_length hty]; exact hone)

theorem readAll_items (p : Peer) {ts : List Ty} {body : List Item} (hty : Item.HaveTys ts body)
    (hfd : validItems notFd body = true) :
    p.readAll (sealMessage body) = .returned (collapse (decodeAll p.tb p.dup body)) := by
  have hread : validItems (readable p.dup) body = true := validItems_mono readable_of_notFd body hfd
  obtain ⟨r, hr⟩ := messageRead_all p.rt p.tb hty hread [body]
  have hall : cfunMessageRead p.rt p.tb p.dup .all (sealMessage body) = _ := hr
  rw [Peer.readAll, hall]

/-- The function is called with the arguments. -/
theorem runFunction_received (server : Peer) (found : Found) {ts : List Ty} {body : List Item}
    (hty : Item.HaveTys ts body) (hfd : validItems notFd body = true)
    (hspread : ¬ ∃ t, ts = [t] ∧ Spreads t = true) (path interface : CString) (inp : ℕ → Janet) :
    let t := (found.fn ⟨found.bus, .string path.bytes, .string interface.bytes⟩
      (decodeAll server.tb server.dup body)).run inp
    server.runFunction found (received body path interface) inp =
      (Fiber.pauses t.1, afterFunction (server.append found) t.2) := by
  have hread : validItems (readable server.dup) body = true := validItems_mono readable_of_notFd body hfd
  obtain ⟨r, hr⟩ := messageRead_all server.rt server.tb hty hread [body]
  have hall : cfunMessageRead server.rt server.tb server.dup .all
    (received body path interface).message = _ := hr
  rw [Peer.runFunction, hall]
  simp only [normalize_all server.tb hty hread hspread]
  rfl

/-- What a function returns that has a type and is accepted. -/
theorem append_result (server : Peer) (found : Found) {us : List Ty}
    (hout : chars found.outSignature = renderAll us) {result : Janet} {is : List Item}
    (his : denoteFields server.rt us (if us = [] then [] else [result]) = some is)
    (hacc : Accepted server.sd [] (callsAll is)) :
    server.append found result = .returned (callsAll is) := by
  rw [Peer.append]
  by_cases hus : us = []
  · subst hus
    obtain rfl : is = [] := by simpa [denoteFields] using his.symm
    have hnil : found.outSignature = [] := List.map_eq_nil_iff.mp hout
    rw [if_pos hnil]
    rfl
  · have hne : found.outSignature ≠ [] := fun h => hus (renderAll_eq_nil (by rw [← hout, h]; rfl))
    rw [if_neg hus] at his
    obtain ⟨st', happend, hcalls⟩ : ∃ st', cfunMessageAppend server.rt server.sd (.string found.outSignature)
        [result] { found.st with calls := [] } = .ok () st' ∧ st'.calls = [] ++ callsAll is :=
      cfunMessageAppend_returns hout (by simp) his hacc
    rw [if_neg hne, happend]
    simp only [hcalls, List.nil_append]

theorem cstring_string (s : CString) : (Janet.string s.bytes).cstring = some s := dif_pos s.2

/-- A remote call of a function, with arguments under a signature that is not empty or without any, is a
    call of the function, unless its signature is a single type that spreads: the function gets the
    canonical forms of the arguments, the caller the canonical form of the result, and an error that is a
    C string becomes an error of the caller. -/
theorem call_returns (caller server : Peer) (text : ErrorText) (toStr : Janet → List UInt8)
    (next : ℕ → Option Bool) (bus : Bus) (hbus : Checks bus.sd) (destination path interface method : Janet)
    (sig : List UInt8) (ts : List Ty)
    (hsig : chars sig = renderAll ts) (hspread : ¬ ∃ t, ts = [t] ∧ Spreads t = true) (args : List Janet)
    (hargs : sig ≠ [] ∨ args = []) (st st' : AppendState) (msg : Outgoing)
    (hpost : callMethod caller.rt next bus destination path interface method (.string sig :: args) st =
      .ok msg st') :
    ∃ body ws, build msg.calls = some body ∧ (validItems notFd body = true →
      FieldsCanonical caller.rt ts args ws ∧
      ∀ (found : Found) (path interface : CString) (inp : ℕ → Janet),
        let ending := ((found.fn ⟨found.bus, .string path.bytes, .string interface.bytes⟩ ws).run inp).2
        let seen := (((server.service toStr (received body path interface) found).outs inp).find? isReply).bind
          (caller.outcome text)
        (∀ result us is, ending = .returned result → chars found.outSignature = renderAll us →
          denoteFields server.rt us (if us = [] then [] else [result]) = some is →
          Accepted server.sd [] (callsAll is) → validItems notFd is = true →
          ∃ vs, FieldsCanonical server.rt us (if us = [] then [] else [result]) vs ∧
            seen = some (.returned (collapse vs))) ∧
        ∀ s : CString, ending = .raised (.string s.bytes) →
          seen = some (.raised (.string (formatError janetError (text s.bytes))))) := by
  obtain ⟨body, hbuild, hty, hbody⟩ := posted_arguments hbus hsig hargs hpost
  refine ⟨body, decodeAll server.tb server.dup body, hbuild, fun hfd => ⟨?_, ?_⟩⟩
  · exact fieldsCanonical (fun v _ t i => decode_canonical server.tb server.dup v t i) hbody hfd
  intro found path interface inp
  have hsees := caller_sees caller server text toStr found (received body path interface) inp
  rw [runFunction_received server found hty hfd hspread path interface inp] at hsees
  refine ⟨fun result us is hend hout his hacc hisfd => ?_, fun s hend => ?_⟩
  · refine ⟨decodeAll caller.tb caller.dup is, ?_, ?_⟩
    · exact fieldsCanonical (fun v _ t i => decode_canonical caller.tb caller.dup v t i) his hisfd
    · rw [hend, afterFunction, append_result server found hout his hacc, Sees,
        build_calls (denoteFields_typed his), Option.map_some,
        readAll_items caller (denoteFields_typed his) hisfd] at hsees
      exact hsees
  · rw [hend, afterFunction, Sees, cstring_string] at hsees
    exact hsees

/-- Both ends in one process, without descriptors. -/
def silentPeer : Peer := ⟨silentRuntime, frontTables, fun _ => .error "", checkingBus⟩

/-- A function that returns its argument. Below it is called as the method `Echo` of the peer `:1.7`. -/
def echo : Found := ⟨fun _ args => .ret (args.headD .nil), [115], .nil, initial []⟩

theorem call_returns_echo : ∃ vs, FieldsCanonical silentRuntime [.basic .string] [.string [104, 105]] vs ∧
    (((silentPeer.service (fun _ => []) (received [.basic (.string hi)] emptyCall.path emptyCall.interface)
      echo).outs fun _ => .nil).find? isReply).bind (silentPeer.outcome some) =
      some (.returned (collapse vs)) := by
  obtain ⟨body, ws, hbuild, hcall⟩ := call_returns silentPeer silentPeer some (fun _ => []) (fun _ => none)
    ⟨fun _ => none, checkingBus⟩ checkingBus_checks (.string [58, 49, 46, 55]) (.string emptyCall.path.bytes)
    (.string emptyCall.interface.bytes) (.string [69, 99, 104, 111]) [115] [.basic .string] rfl
    (by rintro ⟨t, ht, hspread⟩; obtain rfl := (List.cons.inj ht).1; exact absurd hspread (by decide))
    [.string [104, 105]] (.inl (by decide)) (initial []) _ _ rfl
  obtain rfl : [.basic (.string hi)] = body := Option.some.inj hbuild
  obtain ⟨hws, hseen⟩ := hcall rfl
  cases hws with
  | cons _ _ _ w _ ws hw hws =>
    cases hw
    cases hws
    exact (hseen echo emptyCall.path emptyCall.interface fun _ => .nil).1 _ [.basic .string]
      [.basic (.string hi)] rfl rfl rfl ⟨by decide, trivial⟩ rfl

/-! ### Many calls -/

section run
open Exchange Run Objects

variable (caller server : Peer) (text : ErrorText) (toStr : Janet → List UInt8)

abbrev CallState := Exchange.State Janet Janet Sent MethodCall Found

/-- What the caller of a call has so far. -/
def outcomeSoFar (c : Exchange.Call Janet Janet Sent MethodCall Found) : Option Outcome :=
  match c.result with
  | some (.reply o) => caller.outcome text o
  | _ => none

/-- Calls are made, taken up, resumed, answered and given up in any order. A caller that has a reply has
    what it would get if the function ran alone, with the same state to start from and the same
    resumptions, and keeps it; when the function has ended and nothing of it is under way, a caller that
    has not given up has what there is to get. -/
theorem run_sees (as : List (Exchange.Step Janet MethodCall Found)) (s : CallState)
    (hrun : exec (step (server.service toStr) isReply) initial as = some s) (n : ℕ)
    (c : Exchange.Call Janet Janet Sent MethodCall Found) (hn : s.calls[n]? = some c) :
    (∀ o, c.result = some (.reply o) → ∃ found given rest, c.stage = .taken found given rest ∧
      ∀ inp, Begins given inp → Sees caller text (server.runFunction found c.request inp).1
        (server.runFunction found c.request inp).2 (outcomeSoFar caller text c)) ∧
    (∀ found given, c.stage = .taken found given none → entriesOf n s.network = [] →
      c.result ≠ some .gaveUp → ∀ inp, Begins given inp →
        Sees caller text (server.runFunction found c.request inp).1
          (server.runFunction found c.request inp).2 (outcomeSoFar caller text c)) ∧
    ∀ more s', exec (step (server.service toStr) isReply) s more = some s' →
      ∃ c', s'.calls[n]? = some c' ∧ Later c c' := by
  have hgood := good_run hrun
  refine ⟨fun o ho => ?_, fun found given hdone hempty hpatient inp hinp => ?_, fun more s' hmore => ?_⟩
  · obtain ⟨found, given, rest, hstage, hreplied⟩ := hgood.replied hn ho
    refine ⟨found, given, rest, hstage, fun inp hinp => ?_⟩
    have hsees := caller_sees caller server text toStr found c.request inp
    rw [hreplied inp hinp] at hsees
    simp only [outcomeSoFar, ho]
    exact hsees
  · have hsees := caller_sees caller server text toStr found c.request inp
    have hresult := hgood.settled hn hdone hempty hpatient hinp
    have heq : outcomeSoFar caller text c =
        (((server.service toStr c.request found).outs inp).find? isReply).bind (caller.outcome text) := by
      rw [outcomeSoFar, hresult]
      cases ((server.service toStr c.request found).outs inp).find? isReply <;> rfl
    rw [heq]
    exact hsees
  · exact later_run hmore hn

/-- A call with one string. -/
def greeting : MethodCall := received [.basic (.string hi)] emptyCall.path emptyCall.interface

/-- One call, and its reply. -/
theorem run_sees_echo : ∃ s c, exec (step (silentPeer.service fun _ => []) isReply) initial
      [.call greeting, .take 0 echo, .deliver 0] = some s ∧ s.calls[0]? = some c ∧
    Sees silentPeer some (silentPeer.runFunction echo c.request fun _ => .nil).1
      (silentPeer.runFunction echo c.request fun _ => .nil).2 (outcomeSoFar silentPeer some c) := by
  obtain ⟨s, c, hrun, hn, hstage, hempty, hpatient⟩ : ∃ s c,
      exec (step (silentPeer.service fun _ => []) isReply) initial
        [.call greeting, .take 0 echo, .deliver 0] = some s ∧ s.calls[0]? = some c ∧
      c.stage = .taken echo [] none ∧ entriesOf 0 s.network = [] ∧ c.result ≠ some .gaveUp :=
    ⟨_, _, rfl, rfl, rfl, rfl, fun h => nomatch h⟩
  exact ⟨s, c, hrun, hn, (run_sees silentPeer silentPeer some (fun _ => []) _ s hrun 0 c hn).2.1 echo []
    hstage hempty hpatient _ fun n i h => absurd h (by simp)⟩

end run

end JanetSdbus.Client
