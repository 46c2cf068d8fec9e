import JanetSdbus.Client.Call
import JanetSdbus.Export.Stored

/-! Properties, from one end to the other: `get-property`, `set-property` and `proxy-property` of
    `init.janet` against a property that `sdbus/property` made.

    A proxy reads and writes with calls of `org.freedesktop.DBus.Properties`; at the other end sd-bus
    unpacks them for the handlers of the row. A property is a register for plain values, which have no
    array of bytes, no NaN and no equal keys in them: every read through a proxy returns the value that was
    written last (`proxy_register`). -/

namespace JanetSdbus.Client
open DBus Message Export Schemes

/-! ### The proxy -/

section source
variable (rt : Runtime) (next : ℕ → Option Bool) (bus : Bus)

def propertiesInterface : Janet := janetString "org.freedesktop.DBus.Properties"

/-- `get-property`, up to `call-async`. -/
def getProperty (destination path interface property : Janet) : Message.Append Outgoing :=
  callMethod rt next bus destination path propertiesInterface (janetString "Get")
    [janetString "ss", interface, property]

/-- `set-property`, up to `call-async`. -/
def setProperty (destination path interface property variant : Janet) : Message.Append Outgoing :=
  callMethod rt next bus destination path propertiesInterface (janetString "Set")
    [janetString "ssv", interface, property, variant]

/-- What the function of `proxy-property` sends for an optional value. -/
def proxyProperty (state : ProxyState) (name sig value : Janet) : Message.Append Outgoing :=
  if janetIsNil value then
    getProperty rt next bus state.destination state.path state.interface name
  else setProperty rt next bus state.destination state.path state.interface name (.tuple [sig, value])

/-- What it returns for the contents of the reply: of a variant the second element. -/
def proxyPropertyResult (value reply : Janet) : Janet :=
  if janetIsNil value then
    match janetIndexedView reply with
    | some xs => xs.getD 1 .nil
    | none => .nil
  else reply

end source

def mapReturned (f : Janet → Janet) : Outcome → Outcome
  | .returned v => .returned (f v)
  | .raised err => .raised err
  | .aborted => .aborted

/-! ### What sd-bus makes of the calls -/

section access
variable (client server : Peer) (next : ℕ → Option Bool) (refuses : Header → Option String) (emit : Property → ℤ)

/-- A Get: sd-bus opens a variant with the signature of the row, and closes it. -/
def Peer.answerGet (self : Property) (contents : List Char) (reply : AppendState) : Option (List Item) :=
  (Export.answerGet server.rt server.sd self { reply with calls := [.openContainer .variant contents] }).map
    fun variant => [variant]

/-- A Set: sd-bus enters the variant if its contents have the signature of the row. -/
def Peer.answerSet (self : Property) (contents : List Char) (body : List Item) :
    Container → List Char → List Item → Option Property
  | .variant, s, [item] =>
    if s ≠ contents then none
    else match self.setter with
      | none => none
      | some setter =>
        match setHandler server.rt server.tb server.dup emit setter (self, cursorAt body [[item], []]) with
        | .ok o s => if o.reported.rv < 0 ∨ o.reported.retError.isSome = true then none else some s.1
        | .error _ _ => none
  | _, _, _ => none

/-- The property after the call, and the body of the reply; `none` if the reply is an error, or the server
    raises in the middle of it. -/
def Peer.answerProperty (self : Property) (contents : List Char) (reply : AppendState) :
    List Item → Option (Property × List Item)
  | [_, _] => (server.answerGet self contents reply).map fun body => (self, body)
  | [interface, name, .container c s is] =>
    (server.answerSet emit self contents [interface, name, .container c s is] c s is).map fun self => (self, [])
  | _ => none

/-- One use of the proxy: the property after it, and how the use ends; `none` if it is not answered, or
    with an error of sd-bus's own. -/
def access (state : ProxyState) (name sig : Janet) (contents : List Char) (st reply : AppendState)
    (self : Property) (value : Janet) : Option (Property × Outcome) :=
  match proxyProperty client.rt next ⟨refuses, client.sd⟩ state name sig value st with
  | .error e _ => some (self, stopped e)
  | .ok msg _ => (build msg.calls).bind fun body =>
    (server.answerProperty emit self contents reply body).map fun p =>
      (p.1, mapReturned (proxyPropertyResult value) (client.readAll (sealMessage p.2)))

/-- Uses one after the other, in the order in which the server gets them. -/
def accessAll (state : ProxyState) (name sig : Janet) (contents : List Char) (st reply : AppendState) :
    Property → List Janet → Option (Property × List Outcome)
  | self, [] => some (self, [])
  | self, value :: values =>
    (access client server next refuses emit state name sig contents st reply self value).bind fun p =>
      (accessAll state name sig contents st reply p.1 values).map fun q => (q.1, p.2 :: q.2)

end access

/-! ### The register -/

/-- For each use what a register that holds `i` reads, and `none` for a write. -/
def register (rt : Runtime) (t : Ty) : Item → List Janet → List (Option Item)
  | _, [] => []
  | i, value :: values =>
    if janetIsNil value then some i :: register rt t i values
    else none :: register rt t ((denote rt t value).getD i) values

/-- A read returns a value that stands for what was written, a write returns nothing. -/
def Answers (rt : Runtime) (t : Ty) : Option Item → Outcome → Prop
  | some i, seen => ∃ v, seen = .returned v ∧ StandsFor rt t v i
  | none, seen => seen = .returned .nil

/-- What can be written and read back: it can be sent, and has no array of bytes in it. -/
structure Plain (valid : Basic → Bool) (i : Item) : Prop where
  sendable : Sendable i
  noBytes : noBytes i = true
  valid : validItem valid i = true

theorem Plain.of_same {valid : Basic → Bool} {i j : Item} (h : Plain valid i) (hsame : Item.Same j i) :
    Plain valid j :=
  ⟨sendable_of_same hsame h.sendable, noBytes_of_same hsame h.noBytes, valid_of_same hsame h.valid⟩

variable {client server : Peer} {next : ℕ → Option Bool} {refuses : Header → Option String}
  {emit : Property → ℤ} {valid : Basic → Bool} {state : ProxyState} {interface name : CString} {t : Ty} {bs : List UInt8}
  {self : Property} {i : Item} {value : Janet}

/-- The property holds a value that stands for `i`. -/
structure HoldsItem (rt : Runtime) (valid : Basic → Bool) (t : Ty) (bs : List UInt8) (self : Property) (i : Item) :
    Prop where
  standsFor : StandsFor rt t self.value i
  plain : Plain valid i
  sig : self.sig = .string bs
  setter : self.setter.isSome = true
  shown : self.setter = some .propertySetterWithSignal → 104 ∉ self.flags

theorem denote_ne_nil {rt : Runtime} : denote rt t .nil = none := by
  cases t with
  | basic c => cases c <;> rfl
  | variant => rfl
  | array t =>
    rw [denote.eq_def]
    simp only
    split <;> rfl
  | dict k t => rfl
  | struct t ts => rfl

theorem isNil_of_denote {rt : Runtime} (h : denote rt t value = some i) : janetIsNil value = false := by
  cases value with
  | nil => simp [denote_ne_nil] at h
  | _ => rfl

/-- The arguments of a call of the Properties interface. -/
theorem denote_names (rt : Runtime) (interface name : CString) (ts : List Ty) (vs : List Janet) :
    denoteFields rt (.basic .string :: .basic .string :: ts)
      (.string interface.bytes :: .string name.bytes :: vs) =
    (denoteFields rt ts vs).map fun is => .basic (.string interface) :: .basic (.string name) :: is := by
  simp only [denoteFields, denote, convert, cstring_string, Option.map_some, Option.bind_some, Option.map_map]
  rfl

variable (next) in
/-- What is posted when sd-bus takes the values. -/
theorem post_names (hclient : Judges client.sd valid) {h : Header} (hrefuses : refuses h = none)
    (hinterface : valid (.string interface) = true) (hname : valid (.string name) = true) (sig : String)
    (ts : List Ty) (hsig : chars (utf8 sig) = renderAll (.basic .string :: .basic .string :: ts))
    (vs : List Janet) (is : List Item) (his : denoteFields client.rt ts vs = some is)
    (hvalid : validItems valid is = true) (st : AppendState) :
    ∃ msg st', post client.rt next ⟨refuses, client.sd⟩ h
        (janetString sig :: .string interface.bytes :: .string name.bytes :: vs) st = .ok msg st' ∧
      build msg.calls = some (.basic (.string interface) :: .basic (.string name) :: is) := by
  have hbody := denote_names client.rt interface name ts vs
  rw [his, Option.map_some] at hbody
  have hty := denoteFields_typed hbody
  have hacc : Accepted client.sd [] (callsAll (.basic (.string interface) :: .basic (.string name) :: is)) := by
    refine (accepted_fields hclient hty []).mpr ?_
    simp only [validItems, validItem, hinterface, hname, hvalid, Bool.and_self]
  have hpost : ∃ st', post client.rt next ⟨refuses, client.sd⟩ h
      (.string (utf8 sig) :: .string interface.bytes :: .string name.bytes :: vs) st =
      .ok ⟨h, callsAll (.basic (.string interface) :: .basic (.string name) :: is)⟩ st' :=
    post_returns hrefuses hsig (by simp) hbody hacc
  obtain ⟨st', hpost⟩ := hpost
  exact ⟨_, st', hpost, build_calls hty⟩

section steps
variable (next) (hclient : Judges client.sd valid) (hserver : Judges server.sd valid)
  (hrefuses : ∀ h, refuses h = none) (hinterface : state.interface = .string interface.bytes)
  (hvalidInterface : valid (.string interface) = true) (hvalidName : valid (.string name) = true)
  (hbs : chars bs = t.render)
include hclient hserver hrefuses hinterface hvalidInterface hvalidName hbs

/-- A write. -/
theorem access_write (hemit : Announces server.rt server.sd emit) (st reply : AppendState) (h : HoldsItem server.rt valid t bs self i) {item : Item}
    (hitem : denote client.rt t value = some item) (hplain : Plain valid item) :
    ∃ self', access client server next refuses emit state (.string name.bytes) (.string bs) t.render st reply self
        value = some (self', .returned .nil) ∧ HoldsItem server.rt valid t bs self' item := by
  obtain ⟨-, -, hsig, hsetter, hshown⟩ := h
  have hty := denote_hasTy value t item hitem
  have hparse : parse t.render = some t := hbs ▸ parse_chars hbs
  have hvariant : denoteFields client.rt [.variant] [.tuple [.string bs, value]] =
      some [.container .variant t.render [item]] := by
    simp only [denoteFields, denote_variant_eq, hbs, hparse, hitem, Option.bind_some, Option.map_some]
  have hvalid : validItems valid [.container .variant t.render [item]] = true := by
    simp only [validItems, validItem, hplain.valid, Bool.and_self]
  obtain ⟨msg, st', hpost, hbuild⟩ := post_names next hclient
    (hrefuses (.methodCall state.destination state.path propertiesInterface (janetString "Set")))
    hvalidInterface hvalidName "ssv" [.variant] rfl _ _ hvariant hvalid st
  have hproxy : proxyProperty client.rt next ⟨refuses, client.sd⟩ state (.string name.bytes) (.string bs) value st =
      .ok msg st' := by
    simp only [proxyProperty, isNil_of_denote hitem, Bool.false_eq_true, if_false, hinterface]
    exact hpost
  obtain ⟨setter, hsome⟩ := Option.isSome_iff_exists.mp hsetter
  have hread : validItem (readable server.dup) item = true :=
    validItem_mono readable_of_notFd item hplain.sendable.fds
  have hsent : setter = .propertySetterWithSignal → deepEq self.value (decode server.tb server.dup item) = false →
      ¬ emit { self with value := decode server.tb server.dup item } < 0 := by
    rintro rfl -
    exact Announceable.emits hemit hserver hbs { self with value := decode server.tb server.dup item }
      hsig ⟨hshown hsome, .inr (decode_encodes hty hplain.sendable hplain.valid hplain.noBytes)⟩
  have hset := setHandler_set server.rt server.tb hty hread self setter
    [.basic (.string interface), .basic (.string name), .container .variant t.render [item]] [[]] hsent
  have hempty : client.readAll (sealMessage []) = .returned .nil := readAll_items client .nil rfl
  refine ⟨{ self with value := stored server.tb server.dup self.value item }, ?_, ?_, hplain, hsig, hsetter, hshown⟩
  · simp only [access, hproxy, hbuild, Option.bind_some, Peer.answerProperty, Peer.answerSet, hsome, hset,
      ne_eq, not_true_eq_false, if_false, Option.isSome_none, Bool.false_eq_true, or_false, Int.reduceLT,
      Option.map_some, hempty, mapReturned, proxyPropertyResult, isNil_of_denote hitem]
  · exact stored_standsFor hty hplain.sendable hplain.noBytes self.value

/-- A read. -/
theorem access_read (st reply : AppendState) (h : HoldsItem server.rt valid t bs self i) :
    ∃ v, access client server next refuses emit state (.string name.bytes) (.string bs) t.render st reply self .nil =
        some (self, .returned v) ∧ StandsFor client.rt t v i := by
  obtain ⟨⟨j, hj, hsame⟩, hplain, hsig, -, -⟩ := h
  have hplain' := hplain.of_same hsame
  have hty := denote_hasTy self.value t j hj
  obtain ⟨msg, st', hpost, hbuild⟩ := post_names next hclient
    (hrefuses (.methodCall state.destination state.path propertiesInterface (janetString "Get")))
    hvalidInterface hvalidName "ss" [] rfl [] [] rfl rfl st
  have hproxy : proxyProperty client.rt next ⟨refuses, client.sd⟩ state (.string name.bytes) (.string bs) .nil st =
      .ok msg st' := by
    simp only [proxyProperty, janetIsNil, hinterface]
    exact hpost
  have hopen : ({ reply with calls := [.openContainer .variant t.render] } : AppendState).calls =
    [.openContainer .variant t.render] := rfl
  have hget := answerGet_returns hserver hbs hsig hj hplain'.valid hopen
  have hread : client.readAll (sealMessage [.container .variant t.render [j]]) =
      .returned (.tuple [signatureString t.render, decode client.tb client.dup j]) := by
    have hall : Item.HaveTys [.variant] [.container .variant t.render [j]] := .cons _ _ _ _ (.variant t j hty) .nil
    rw [readAll_items client hall]
    · rw [decodeAll, decodeAll, decode, decodeAll, decodeAll, collapse]
    · simp only [validItems, validItem, hplain'.sendable.fds, Bool.and_self]
  obtain ⟨k, hspell, hkj⟩ := decode_spelled client.tb client.dup hty hplain'.sendable hplain'.noBytes
  refine ⟨decode client.tb client.dup j, ?_, k, hspell.denote, same_trans hkj i hsame⟩
  simp only [access, hproxy, hbuild, Option.bind_some, Peer.answerProperty, Peer.answerGet, hget,
    Option.map_some, hread]
  rfl

/-- Uses in any order. -/
theorem accessAll_register (hemit : Announces server.rt server.sd emit) (st reply : AppendState) : ∀ (values : List Janet) {self : Property} {i : Item},
    HoldsItem server.rt valid t bs self i →
    (∀ v ∈ values, v = .nil ∨ ∃ j, denote client.rt t v = some j ∧ Plain valid j) →
    ∃ self' seen, accessAll client server next refuses emit state (.string name.bytes) (.string bs) t.render st reply
        self values = some (self', seen) ∧
      List.Forall₂ (Answers client.rt t) (register client.rt t i values) seen
  | [], self, i, _, _ => ⟨self, [], rfl, .nil⟩
  | value :: values, self, i, h, hall => by
    have hrest : ∀ v ∈ values, v = .nil ∨ ∃ j, denote client.rt t v = some j ∧ Plain valid j :=
      fun v hv => hall v (List.mem_cons_of_mem _ hv)
    rcases hall value List.mem_cons_self with rfl | ⟨j, hj, hplain⟩
    · obtain ⟨v, hfirst, hstands⟩ := access_read next hclient hserver hrefuses hinterface
        hvalidInterface hvalidName hbs st reply h
      obtain ⟨self', seen, hseen, hanswers⟩ := accessAll_register hemit st reply values h hrest
      refine ⟨self', .returned v :: seen, ?_, .cons ⟨v, rfl, hstands⟩ hanswers⟩
      rw [accessAll, hfirst, Option.bind_some, hseen, Option.map_some]
    · obtain ⟨self₁, hfirst, hholds⟩ := access_write next hclient hserver hrefuses hinterface
        hvalidInterface hvalidName hbs hemit st reply h hj hplain
      obtain ⟨self', seen, hseen, hanswers⟩ := accessAll_register hemit st reply values hholds hrest
      refine ⟨self', .returned .nil :: seen, ?_, ?_⟩
      · rw [accessAll, hfirst, Option.bind_some, hseen, Option.map_some]
      · rw [register, if_neg (by simp [isNil_of_denote hj]), hj, Option.getD_some]
        exact .cons rfl hanswers

end steps

end JanetSdbus.Client
