import JanetSdbus.Message.RoundTrip

/-! What `call-method`, `emit-signal` and the methods of a proxy send.

    All three create a message, append to it what follows the header and hand it to sd-bus. A
    signature that is empty is not appended, and neither are the arguments behind it: they are
    dropped where a longer signature would count them (`nothing_dropped_iff`). -/

namespace JanetSdbus.Message
open DBus Schemes.CMemory

inductive Header where
  | methodCall (destination path interface member : Janet)
  | signal (path interface member : Janet)

/-- A message as it is handed to sd-bus. -/
structure Outgoing where
  header : Header
  calls : List Call

/-- The connection: which headers are refused, with which error, and what sd-bus answers to the
    calls that build a body. -/
structure Bus where
  refuses : Header → Option String
  sd : SdBus

section source
variable (rt : Runtime)

/-- Janet's `empty?`: whether `next` finds no key. `next` tells it for the values that the model does
    not look into, `none` if it raises. -/
def isEmpty (next : ℕ → Option Bool) : Janet → Append Bool
  | .string bs | .symbol bs | .keyword bs | .buffer bs => pure bs.isEmpty
  | .tuple xs | .array xs => pure xs.isEmpty
  | .struct kvs | .table kvs => pure kvs.isEmpty
  -- these have methods, and `next` goes over them
  | .s64 _ | .u64 _ | .file _ _ | .stream _ _ => pure false
  | .other id =>
    match next id with
    | some b => pure b
    | none => janetPanic ("expected iterable type, got " ++ rt.format_v (.other id))
  | x => janetPanic ("expected iterable type, got " ++ rt.format_v x)

variable (next : ℕ → Option Bool) (bus : Bus)

/-- `message-new-method-call` and `message-new-signal`. -/
def messageNew (h : Header) : Append Unit :=
  match bus.refuses h with
  | some msg => janetPanic msg
  | none => modify fun st => { st with calls := [] }

/-- Appends unless there is no signature or an empty one. -/
def appendRest : List Janet → Append Unit
  | [] | .nil :: _ => pure ()
  | signature :: args => do
    let empty ← isEmpty rt next signature
    if empty then pure () else cfunMessageAppend rt bus.sd signature args

/-- A message with the header `h` and what `rest` says of its body. -/
def post (h : Header) (rest : List Janet) : Append Outgoing := do
  messageNew bus h
  appendRest rt next bus rest
  pure ⟨h, (← get).calls⟩

/-- `call-method`, up to `call-async`. -/
def callMethod (destination path interface method : Janet) (rest : List Janet) : Append Outgoing :=
  post rt next bus (.methodCall destination path interface method) rest

/-- `emit-signal`, up to `message-send`. -/
def emitSignal (path interface signal : Janet) (rest : List Janet) : Append Outgoing :=
  post rt next bus (.signal path interface signal) rest

/-- What a proxy remembers of its object. -/
structure ProxyState where
  destination : Janet
  path : Janet
  interface : Janet

/-- `proxy-method`, for a method whose inputs have these types: their signatures joined. -/
def proxyMethod (state : ProxyState) (name : Janet) (types : List (List UInt8)) (args : List Janet) :
    Append Outgoing :=
  let sig := types.flatten
  callMethod rt next bus state.destination state.path state.interface name (.string sig :: args)

end source

/-! ### Nothing dropped -/

/-- The ways to send arguments under a signature. -/
inductive Operation where
  | callMethod (destination path interface method : Janet) (sig : List UInt8)
  | emitSignal (path interface signal : Janet) (sig : List UInt8)
  | proxyMethod (state : ProxyState) (name : Janet) (types : List (List UInt8))

def Operation.signature : Operation → List UInt8
  | .callMethod _ _ _ _ sig | .emitSignal _ _ _ sig => sig
  | .proxyMethod _ _ types => types.flatten

def Operation.header : Operation → Header
  | .callMethod destination path interface method _ => .methodCall destination path interface method
  | .emitSignal path interface signal _ => .signal path interface signal
  | .proxyMethod state name _ => .methodCall state.destination state.path state.interface name

variable (rt : Runtime) (next : ℕ → Option Bool)

def Operation.run (bus : Bus) (args : List Janet) : Operation → Append Outgoing
  | .callMethod destination path interface method sig =>
    Message.callMethod rt next bus destination path interface method (.string sig :: args)
  | .emitSignal path interface signal sig =>
    Message.emitSignal rt next bus path interface signal (.string sig :: args)
  | .proxyMethod state name types => Message.proxyMethod rt next bus state name types args

/-- The calls build a body of the signature, one argument for each of its complete types, and its
    items are what the arguments stand for. -/
def Carries (sig : List UInt8) (args : List Janet) (calls : List Call) : Prop :=
  ∃ ts body, chars sig = renderAll ts ∧ args.length = ts.length ∧ denoteFields rt ts args = some body ∧
    Item.HaveTys ts body ∧ build calls = some body

/-- Whatever sd-bus refuses, beside contents that do not fit, and whatever has been appended before:
    the message handed to sd-bus, if one is, carries all the arguments, and none is if their number is
    not that of the complete types. -/
def NothingDropped (op : Operation) (args : List Janet) : Prop :=
  ∀ bus : Bus, Checks bus.sd → ∀ st,
    (∀ msg st', op.run rt next bus args st = .ok msg st' →
      msg.header = op.header ∧ Carries rt op.signature args msg.calls) ∧
    ∀ ts, chars op.signature = renderAll ts → args.length ≠ ts.length →
      ∀ msg st', op.run rt next bus args st ≠ .ok msg st'

variable {rt next} {bus : Bus} {h : Header} {op : Operation} {sig : List UInt8} {args : List Janet}
  {st st' : AppendState} {msg : Outgoing}

/-- One proof for the three ways. -/
theorem Operation.run_eq (bus : Bus) (args : List Janet) (op : Operation) :
    op.run rt next bus args = post rt next bus op.header (.string op.signature :: args) := by
  cases op <;> rfl

theorem run_messageNew {u : Unit} : messageNew bus h st = .ok u st' ↔
    bus.refuses h = none ∧ st' = { st with calls := [] } := by
  rw [messageNew]
  cases hrefuses : bus.refuses h with
  | some text => simp
  | none => simp [run_modify]

/-- What is posted under a signature: nothing if it is empty, else what `message-append` builds in a
    new message. -/
theorem run_post : post rt next bus h (.string sig :: args) st = .ok msg st' ↔
    bus.refuses h = none ∧ msg = ⟨h, st'.calls⟩ ∧
    if sig = [] then st' = { st with calls := [] }
    else cfunMessageAppend rt bus.sd (.string sig) args { st with calls := [] } = .ok () st' := by
  simp only [post, appendRest, isEmpty, run_bind, run_messageNew, run_pure, run_get]
  constructor
  · rintro ⟨_, _, ⟨hnone, rfl⟩, _, _, ⟨_, _, ⟨rfl, rfl⟩, happend⟩, _, _, ⟨rfl, rfl⟩, rfl, rfl⟩
    refine ⟨hnone, rfl, ?_⟩
    cases sig with
    | nil => exact (run_pure.mp happend).2
    | cons b bs => exact happend
  · rintro ⟨hnone, rfl, happend⟩
    refine ⟨(), _, ⟨hnone, rfl⟩, (), st', ⟨_, _, ⟨rfl, rfl⟩, ?_⟩, _, _, ⟨rfl, rfl⟩, rfl, rfl⟩
    cases sig with
    | nil => exact run_pure.mpr ⟨rfl, happend⟩
    | cons b bs => exact happend

/-- `message-append` in a new message builds a body that carries the arguments. -/
theorem carries_append {sd : SdBus} (hsd : Checks sd)
    (happend : cfunMessageAppend rt sd (.string sig) args { st with calls := [] } = .ok () st') :
    Carries rt sig args st'.calls := by
  obtain ⟨_, hnul, q, hq⟩ := run_messageAppend.mp happend
  have hnone : '\x00' ∉ chars sig := fun h => hnul (nul_mem_chars.mp h)
  have hstr := alloc_str (m := st.mem) (r := []) hnone
  obtain ⟨ts, body, hts, hbody, hcalls, _⟩ := appendData_fits hsd hstr hq
  have hty := denoteFields_typed hbody
  refine ⟨ts, body, hts, (denoteFields_length hbody).symm, hbody, hty, ?_⟩
  rw [hcalls]
  exact build_calls hty

/-- An empty body carries no argument. -/
theorem carries_nil {calls : List Call} (hc : Carries rt [] args calls) : args = [] := by
  obtain ⟨ts, _, hts, hlen, _⟩ := hc
  obtain rfl : ts = [] := renderAll_inj hts.symm
  exact List.length_eq_zero_iff.mp hlen

theorem Carries.length {calls : List Call} (hc : Carries rt sig args calls) {ts : List Ty}
    (hts : chars sig = renderAll ts) : args.length = ts.length := by
  obtain ⟨us, _, hus, hlen, _⟩ := hc
  rw [hlen, renderAll_inj (hus.symm.trans hts)]

/-- Arguments that conform to a signature that is not empty are sent if sd-bus accepts them. -/
theorem post_returns {ts : List Ty} {body : List Item} (hrefuses : bus.refuses h = none)
    (hts : chars sig = renderAll ts) (hne : ts ≠ []) (hbody : denoteFields rt ts args = some body)
    (hacc : Accepted bus.sd [] (callsAll body)) :
    ∃ st', post rt next bus h (.string sig :: args) st = .ok ⟨h, callsAll body⟩ st' := by
  have hlen := denoteFields_length hbody
  have hargs : args ≠ [] := by
    rintro rfl
    exact hne (List.length_eq_zero_iff.mp hlen)
  have hsig : sig ≠ [] := by
    rintro rfl
    exact hne (renderAll_inj hts.symm)
  obtain ⟨st', hrun, hcalls⟩ : ∃ st', cfunMessageAppend rt bus.sd (.string sig) args { st with calls := [] } =
      .ok () st' ∧ st'.calls = [] ++ callsAll body := cfunMessageAppend_returns hts hargs hbody hacc
  refine ⟨st', run_post.mpr ⟨hrefuses, by rw [hcalls]; rfl, ?_⟩⟩
  rwa [if_neg hsig]

/-- The arguments of `call-method`, `emit-signal` and a proxy's method all arrive, and arrive in the
    right number, unless there are some behind an empty signature. -/
theorem nothing_dropped_iff (rt : Runtime) (next : ℕ → Option Bool) (op : Operation)
    (args : List Janet) : NothingDropped rt next op args ↔ op.signature ≠ [] ∨ args = [] := by
  constructor
  · intro hop
    by_contra hnot
    obtain ⟨hsig, hargs⟩ := not_or.mp hnot
    obtain ⟨hsent, _⟩ := hop ⟨fun _ => none, checkingBus⟩
      (fun hist k s hfit => (checkingBus_accepts hist _).mpr ⟨k, s, rfl, hfit⟩) (initial [])
    obtain ⟨_, hcarries⟩ := hsent ⟨op.header, []⟩ { initial [] with calls := [] } (by
      rw [Operation.run_eq, run_post, if_pos (not_not.mp hsig)]
      exact ⟨rfl, rfl, rfl⟩)
    rw [not_not.mp hsig] at hcarries
    exact hargs (carries_nil hcarries)
  · intro hcond bus hsd st
    have hsent : ∀ msg st', op.run rt next bus args st = .ok msg st' →
        msg.header = op.header ∧ Carries rt op.signature args msg.calls := by
      intro msg st' hrun
      rw [Operation.run_eq] at hrun
      obtain ⟨_, rfl, happend⟩ := run_post.mp hrun
      refine ⟨rfl, ?_⟩
      split at happend
      · next hsig =>
        -- no signature and no argument
        obtain rfl := hcond.resolve_left (not_not.mpr hsig)
        subst happend
        rw [hsig]
        exact ⟨[], [], rfl, rfl, rfl, .nil, rfl⟩
      · exact carries_append hsd happend
    refine ⟨hsent, fun ts hts hlen msg st' hrun => hlen ?_⟩
    exact (hsent msg st' hrun).2.length hts

/-- A signal declared without arguments, emitted with one: it is sent, without it. -/
theorem emitSignal_drops : ∃ st',
    emitSignal silentRuntime (fun _ => none) ⟨fun _ => none, checkingBus⟩ (.string [47]) (.string [97, 46, 98])
      (.string [83]) [.string [], .boolean true] (initial []) =
        .ok ⟨.signal (.string [47]) (.string [97, 46, 98]) (.string [83]), []⟩ st' ∧
    ¬ NothingDropped silentRuntime (fun _ => none)
      (.emitSignal (.string [47]) (.string [97, 46, 98]) (.string [83]) []) [.boolean true] := by
  refine ⟨_, rfl, fun hop => ?_⟩
  obtain ⟨hsent, _⟩ := hop ⟨fun _ => none, checkingBus⟩
    (fun hist k s hfit => (checkingBus_accepts hist _).mpr ⟨k, s, rfl, hfit⟩) (initial [])
  have hnil := carries_nil (hsent _ _ rfl).2
  exact absurd hnil (by simp)

end JanetSdbus.Message
