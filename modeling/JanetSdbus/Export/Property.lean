import JanetSdbus.Export.Vtable
import JanetSdbus.Export.Method
import JanetSdbus.Message.Spelling

/-! Exported properties: `property` of `init.janet` and the property handlers of `export.c`.

    sd-bus calls the C handlers; they run the Janet getter or setter under a wrapper that returns
    errors as values. So the C code never sees an error, and to the setter that signals changes an
    error looks like a change (`property_failures_unreported`). -/

namespace JanetSdbus.Export
open DBus Message

/-! ### The Janet side -/

/-- What `property` makes. Only `:value` is ever set. -/
structure Property where
  flags : List UInt8
  writable : Bool
  sig : Janet
  value : Janet

/-- `string/check-set` -/
def checkSet (set str : List UInt8) : Bool := str.all fun c => c ∈ set

/-- `:dhreixw` -/
def propertyFlags : List UInt8 := [100, 104, 114, 101, 105, 120, 119]

def property (signature value : Janet) (flags : List UInt8) : Except Stop Property :=
  if checkSet propertyFlags flags = false then .error (.panic ("Invalid property flags: " ++ text flags))
  else .ok ⟨flags, checkSet flags [119], signature, value⟩

section janet
variable (rt : Runtime) (tb : Tables) (dup : ℤ → Except String ℤ) (sd : SdBus)

def propertyGetter (self : Property) : EStateM Stop AppendState Janet := do
  cfunMessageAppend rt sd self.sig [self.value]
  pure .nil

/-- The property and the message are the state. -/
def propertySetter : EStateM Stop (Property × Reader) Janet := fun s =>
  match cfunMessageRead rt tb dup .rest s.2 with
  | .error e msg => .error e (s.1, msg)
  | .ok value msg =>
    if deepEq s.1.value value then .ok .nil (s.1, msg)
    else .ok value ({ s.1 with value := value }, msg)

/-- `(try (fun self msg) ([err] err))` -/
def propertyWrapper {σ : Type} (fun_ : EStateM Stop σ Janet) : EStateM Stop σ Janet := fun s =>
  match fun_ s with
  | .error (.panic err) s => .ok (janetString err) s
  | r => r

end janet

/-! ### The C side -/

/-- What a handler tells sd-bus: what it returns, and what it sets `ret_error` to. -/
structure Reported where
  rv : ℤ
  retError : Option String
  deriving DecidableEq

/-- A negative return or `ret_error`. -/
def Reported.isFailure (r : Reported) : Prop := r.rv < 0 ∨ r.retError.isSome = true

/-- EIO, what `sd_bus_error_setf` makes of an error name it does not know. -/
def ioError : ℤ := 5

def janetIsNil : Janet → Bool
  | .nil => true
  | _ => false

/-- `property_handler_core`, after the lookup of the function. -/
def propertyHandlerCore {σ : Type} (f : EStateM Stop σ Janet) : EStateM Stop σ Reported := fun s =>
  match f s with
  | .error (.panic err) s => .ok ⟨-ioError, some ("internal property error: " ++ err)⟩ s
  | .error e s => .error e s
  | .ok out s => .ok ⟨if janetIsNil out then 1 else 0, none⟩ s

section handlers
variable (rt : Runtime) (tb : Tables) (dup : ℤ → Except String ℤ) (sd : SdBus)

/-- `property_getter`: the result of the core is dropped. -/
def getHandler (self : Property) : EStateM Stop AppendState Reported := fun s =>
  match propertyHandlerCore (propertyWrapper (propertyGetter rt sd self)) s with
  | .ok r s => .ok { r with rv := 0 } s
  | .error e s => .error e s

/-- A setter that was called: what it reports, and how many signals it emitted. -/
structure SetOutcome where
  reported : Reported
  emitted : ℕ
  deriving DecidableEq

variable (emit : Property → ℤ)

/-- `CALL_SD_BUS_FUNC(sd_bus_emit_properties_changed, ..)`; what the call returns depends on the property,
    which sd-bus asks for its value. -/
def emitPropertiesChanged {σ : Type} (reported : Reported) : EStateM Stop (Property × σ) SetOutcome := fun s =>
  if emit s.1 < 0 then
    .error (.panic ("failed to call sd_bus_emit_properties_changed: " ++ rt.strerror (-emit s.1))) s
  else .ok ⟨reported, 1⟩ s

/-- `property_setter` and `property_setter_with_signal`. -/
def setHandler (setter : Setter) : EStateM Stop (Property × Reader) SetOutcome := fun s =>
  match propertyHandlerCore (propertyWrapper (propertySetter rt tb dup)) s with
  | .ok r s =>
    match setter with
    | .propertySetter => .ok ⟨{ r with rv := 0 }, 0⟩ s
    | .propertySetterWithSignal =>
      if r.rv = 0 then emitPropertiesChanged rt emit { r with rv := 0 } s else .ok ⟨{ r with rv := 0 }, 0⟩ s
  | .error e s => .error e s

end handlers

/-! ### Registration -/

/-- The setter that `create_vtable_property` registers. -/
def Property.setter (self : Property) : Option Setter :=
  match sdBusFlags self.flags with
  | .ok mask => setterOf self.writable mask
  | .error _ => none

/-- The table that `property` makes, as `export` sees it. -/
def Property.entry (self : Property) (getter setter : ℕ) : Janet :=
  .table [(.keyword (bytesOf "type"), .symbol (bytesOf "property")),
    (.keyword (bytesOf "flags"), .keyword self.flags),
    (.keyword (bytesOf "writable"), .boolean self.writable), (.keyword (bytesOf "sig"), self.sig),
    (.keyword (bytesOf "value"), self.value), (.keyword (bytesOf "getter"), .other getter),
    (.keyword (bytesOf "setter"), .other setter)]

section registration
variable {signature value : Janet} {flags : List UInt8} {self : Property}

theorem property_ok (h : property signature value flags = .ok self) :
    (∀ c ∈ flags, c ∈ propertyFlags) ∧ self = ⟨flags, checkSet flags [119], signature, value⟩ := by
  rw [property] at h
  split at h
  · simp at h
  · next hset =>
    rw [Bool.not_eq_false, checkSet, List.all_eq_true] at hset
    exact ⟨fun c hc => of_decide_eq_true (hset c hc), (Except.ok.inj h).symm⟩

/-- The letters of a property all have their bits. -/
theorem flagOf_property {c : UInt8} (h : c ∈ propertyFlags) : ∃ bits, flagOf c = some bits ∧
    (.propertyEmitsChange ∈ bits ↔ c = 101) ∧ (.propertyEmitsInvalidation ∈ bits ↔ c = 105) := by
  simp only [propertyFlags, List.mem_cons, List.not_mem_nil, or_false] at h
  rcases h with rfl | rfl | rfl | rfl | rfl | rfl | rfl
  all_goals exact ⟨_, rfl, by decide, by decide⟩

theorem sdBusFlags_property : ∀ {flags : List UInt8}, (∀ c ∈ flags, c ∈ propertyFlags) →
    ∃ mask, sdBusFlags flags = .ok mask ∧ (.propertyEmitsChange ∈ mask ↔ 101 ∈ flags) ∧
      (.propertyEmitsInvalidation ∈ mask ↔ 105 ∈ flags)
  | [], _ => ⟨[], rfl, by simp, by simp⟩
  | c :: cs, h => by
    obtain ⟨bits, hbits, hchange, hinval⟩ := flagOf_property (h c List.mem_cons_self)
    obtain ⟨mask, hmask, hchange', hinval'⟩ :=
      sdBusFlags_property fun d hd => h d (List.mem_cons_of_mem _ hd)
    refine ⟨bits ++ mask, by rw [sdBusFlags, hbits]; simp only [hmask, Except.map], ?_, ?_⟩
    · rw [List.mem_append, hchange, hchange', List.mem_cons, eq_comm]
    · rw [List.mem_append, hinval, hinval', List.mem_cons, eq_comm]

/-- A property with the flags `w` and `e` or `i` gets the setter that signals changes. -/
theorem setter_withSignal (h : property signature value flags = .ok self) :
    self.setter = some .propertySetterWithSignal ↔ 119 ∈ flags ∧ (101 ∈ flags ∨ 105 ∈ flags) := by
  obtain ⟨hflags, rfl⟩ := property_ok h
  obtain ⟨mask, hmask, hchange, hinval⟩ := sdBusFlags_property hflags
  simp only [Property.setter, hmask, setterOf, hchange, hinval, checkSet, List.all_cons, List.all_nil,
    Bool.and_true, decide_eq_true_eq]
  split
  · next hw => simpa using hw
  · next hw =>
    split <;> simpa using hw

/-- A property with the flag `w` gets a setter. -/
theorem setter_isSome (h : property signature value flags = .ok self) :
    self.setter.isSome = true ↔ 119 ∈ flags := by
  obtain ⟨hflags, rfl⟩ := property_ok h
  obtain ⟨mask, hmask, _⟩ := sdBusFlags_property hflags
  simp only [Property.setter, hmask, setterOf, checkSet, List.all_cons, List.all_nil, Bool.and_true,
    decide_eq_true_eq]
  by_cases hw : (119 : UInt8) ∈ flags
  · simp only [hw, true_and, if_true, iff_true]
    split <;> rfl
  · simp [hw]

/-- It is the setter in the row that `export` registers. -/
theorem createVtableProperty_entry {host : Host} {name bs : List UInt8} {f g : ℕ}
    (h : property (.string bs) value flags = .ok self) : ∃ mask,
      createVtableProperty host name (self.entry f g) =
        .ok ⟨name, .property (bs.takeWhile (· ≠ 0)) self.setter, mask⟩ := by
  obtain ⟨hflags, rfl⟩ := property_ok h
  obtain ⟨mask, hmask, _⟩ := sdBusFlags_property hflags
  refine ⟨mask, ?_⟩
  rw [createVtableProperty]
  refine except_bind.mpr ⟨_, rfl, except_bind.mpr ⟨_, rfl, except_bind.mpr ⟨_, rfl, except_bind.mpr
    ⟨_, rfl, except_bind.mpr ⟨mask, hmask, except_bind.mpr ⟨_, rfl, ?_⟩⟩⟩⟩⟩⟩
  simp only [Property.setter, hmask, Host.unwrap]
  rfl

end registration

/-! ### Failures -/

section failures
variable {rt : Runtime} {tb : Tables} {dup : ℤ → Except String ℤ} {sd : SdBus}

/-- A Get that fails is reported. -/
def GetFailureReported (rt : Runtime) (sd : SdBus) (self : Property) (reply : AppendState) : Prop :=
  ∃ r reply', getHandler rt sd self reply = .ok r reply' ∧ r.isFailure

/-- A Set that fails is reported, changes nothing and signals nothing. -/
def SetFailureReported (rt : Runtime) (tb : Tables) (dup : ℤ → Except String ℤ) (emit : Property → ℤ)
    (setter : Setter) (self : Property) (msg : Reader) : Prop :=
  ∃ o msg', setHandler rt tb dup emit setter (self, msg) = .ok o (self, msg') ∧ o.reported.isFailure ∧
    o.emitted = 0

theorem getHandler_raises {self : Property} {reply reply' : AppendState} {err : String}
    (h : propertyGetter rt sd self reply = .error (.panic err) reply') :
    getHandler rt sd self reply = .ok ⟨0, none⟩ reply' := by
  simp only [getHandler, propertyHandlerCore, propertyWrapper, h]

/-- What is left of a Set when the setter has raised. -/
def afterRaise (rt : Runtime) (emit : Property → ℤ) :
    Setter → EStateM Stop (Property × Reader) SetOutcome
  | .propertySetter => fun s => .ok ⟨⟨0, none⟩, 0⟩ s
  | .propertySetterWithSignal => emitPropertiesChanged rt emit ⟨0, none⟩

theorem setHandler_raises {self self' : Property} {msg msg' : Reader} {err : String} (emit : Property → ℤ)
    (setter : Setter) (h : propertySetter rt tb dup (self, msg) = .error (.panic err) (self', msg')) :
    self' = self ∧ setHandler rt tb dup emit setter (self, msg) = afterRaise rt emit setter (self, msg') := by
  have hself : self' = self := by
    rw [propertySetter] at h
    split at h
    · obtain ⟨_, hs⟩ := EStateM.Result.error.inj h
      exact (Prod.mk.inj hs).1.symm
    · split at h <;> simp at h
  subst hself
  refine ⟨rfl, ?_⟩
  simp only [setHandler, propertyHandlerCore, propertyWrapper, h]
  cases setter <;> rfl

theorem not_isFailure : ¬ (⟨0, none⟩ : Reported).isFailure := by
  simp [Reported.isFailure]

/-- After a raise nothing is reported that is a failure. -/
theorem afterRaise_reported {emit : Property → ℤ} {setter : Setter} {s s' : Property × Reader} {o : SetOutcome}
    (h : afterRaise rt emit setter s = .ok o s') : ¬ o.reported.isFailure := by
  cases setter with
  | propertySetter =>
    obtain ⟨rfl, _⟩ := EStateM.Result.ok.inj h
    exact not_isFailure
  | propertySetterWithSignal =>
    rw [afterRaise, emitPropertiesChanged] at h
    split at h
    · exact nomatch h
    · obtain ⟨rfl, _⟩ := EStateM.Result.ok.inj h
      exact not_isFailure

/-- Whenever the getter or the setter raises, the handler reports no failure, whatever the call of
    `sd_bus_emit_properties_changed` returns: a Get reports success and leaves what it has written of the
    reply, and a Set reports success too, after it has signalled a change if it is a setter that does,
    unless it raises because the signal cannot be emitted. -/
theorem property_failures_unreported (rt : Runtime) (tb : Tables) (dup : ℤ → Except String ℤ) (sd : SdBus)
    (emit : Property → ℤ) (self : Property) :
    (∀ reply err reply', propertyGetter rt sd self reply = .error (.panic err) reply' →
      getHandler rt sd self reply = .ok ⟨0, none⟩ reply' ∧ ¬ GetFailureReported rt sd self reply) ∧
    (∀ setter msg err s', propertySetter rt tb dup (self, msg) = .error (.panic err) s' →
      setHandler rt tb dup emit setter (self, msg) = afterRaise rt emit setter s' ∧
      (setter = .propertySetter ∨ ¬ emit self < 0 → setHandler rt tb dup emit setter (self, msg) =
        .ok ⟨⟨0, none⟩, if setter = .propertySetterWithSignal then 1 else 0⟩ s') ∧
      ¬ SetFailureReported rt tb dup emit setter self msg) := by
  constructor
  · intro reply err reply' h
    have hget := getHandler_raises h
    refine ⟨hget, ?_⟩
    rintro ⟨r, _, hr, hfail⟩
    rw [hget] at hr
    obtain ⟨rfl, _⟩ := EStateM.Result.ok.inj hr
    exact not_isFailure hfail
  · rintro setter msg err ⟨self', msg'⟩ h
    obtain ⟨rfl, hset⟩ := setHandler_raises emit setter h
    refine ⟨hset, fun hemit => ?_, ?_⟩
    · rw [hset]
      cases setter with
      | propertySetter => rfl
      | propertySetterWithSignal =>
        have hsent : ¬ emit self' < 0 := hemit.resolve_left (by simp)
        simp only [afterRaise, emitPropertiesChanged, if_neg hsent, if_true]
    · rintro ⟨o, _, ho, hfail, _⟩
      rw [hset] at ho
      exact afterRaise_reported ho hfail

/-- A property of the signature `(si)` that holds a pair of strings. -/
def mismatched : Property :=
  ⟨[119, 101], true, .string (bytesOf "(si)"), .tuple [.string (bytesOf "x"), .string (bytesOf "y")]⟩

/-- A property of a descriptor, which holds an open stream. -/
def descriptorProperty : Property := ⟨[119, 101], true, .string (bytesOf "h"), .stream false 4⟩

/-- A reply under construction, in the variant that sd-bus opens for the value. -/
def emptyReply (signature : List Char) : AppendState :=
  ⟨Schemes.CMemory.Mem.empty, ⟨none, 0, none, 0, 0, 0⟩, [.openContainer .variant signature]⟩

/-- A request that carries a descriptor. -/
def descriptorRequest : Reader := cursorAt [] [[.basic (.fd 3)], []]

/-- The Get finds a value of another type, the Set a descriptor that cannot be duplicated. -/
theorem property_failures_unreported_mismatch :
    (∃ reply', getHandler silentRuntime checkingBus mismatched (emptyReply ['(', 's', 'i', ')']) =
      .ok ⟨0, none⟩ reply' ∧ ¬ GetFailureReported silentRuntime checkingBus mismatched
        (emptyReply ['(', 's', 'i', ')'])) ∧
    (∃ s', setHandler silentRuntime frontTables (fun _ => .error "dup") (fun _ => 1) .propertySetterWithSignal
        (descriptorProperty, descriptorRequest) = .ok ⟨⟨0, none⟩, 1⟩ s' ∧
      ¬ SetFailureReported silentRuntime frontTables (fun _ => .error "dup") (fun _ => 1)
        .propertySetterWithSignal descriptorProperty descriptorRequest) := by
  have hget := (property_failures_unreported silentRuntime frontTables (fun _ => .error "dup") checkingBus
    (fun _ => 1) mismatched).1 (emptyReply ['(', 's', 'i', ')']) _ _ rfl
  have hset := (property_failures_unreported silentRuntime frontTables (fun _ => .error "dup") checkingBus
    (fun _ => 1) descriptorProperty).2 .propertySetterWithSignal descriptorRequest _ _ rfl
  exact ⟨⟨_, hget⟩, ⟨_, hset.2.1 (.inr (by decide)), hset.2.2⟩⟩

/-- The getter writes the first string and raises at the second; sd-bus is told of no error and has a
    reply with an open struct in it. -/
theorem getHandler_partly_written : ∃ err reply',
    propertyGetter silentRuntime checkingBus mismatched (emptyReply ['(', 's', 'i', ')']) =
      .error (.panic err) reply' ∧
    getHandler silentRuntime checkingBus mismatched (emptyReply ['(', 's', 'i', ')']) = .ok ⟨0, none⟩ reply' ∧
    reply'.calls = [.openContainer .variant ['(', 's', 'i', ')'], .openContainer .struct ['s', 'i'],
      .appendBasic (.string ⟨[120], by decide⟩)] ∧
    ¬ GetFailureReported silentRuntime checkingBus mismatched (emptyReply ['(', 's', 'i', ')']) := by
  refine ⟨_, _, rfl, rfl, rfl, ?_⟩
  rintro ⟨r, reply', hr, hfail⟩
  have hok : getHandler silentRuntime checkingBus mismatched (emptyReply ['(', 's', 'i', ')']) =
      .ok ⟨0, none⟩ _ := rfl
  obtain ⟨rfl, _⟩ := EStateM.Result.ok.inj (hok.symm.trans hr)
  exact not_isFailure hfail

end failures

end JanetSdbus.Export
