import JanetSdbus.Export.Arity
import JanetSdbus.Export.Property
import JanetSdbus.Message.Storable

/-! Runs of Gets and Sets on an exported property.

    A Set stores what the decoder makes of the value unless that is structurally equal to the stored
    value; a Get encodes what is stored, and so does the signal of a change. A handler that raises, and a
    reply that cannot be closed, make `process_bus` raise, and then nothing more is served. So Gets return
    the value of the last Set as long as no array of bytes has to be encoded and no hidden property has to
    be signalled (`gets_return_last_set`), and a Set signals a change if and only if the encoding of the
    stored value changes, unless the signal cannot be emitted, or the stored value is another spelling of
    the value that is set or has a NaN in it (`set_signals_change`). -/

namespace JanetSdbus.Export
open DBus Message

/-- What a client asks. sd-bus opens a variant in the reply to a Get, and enters the variant of the
    value in the message of a Set. -/
inductive Request where
  | get (reply : AppendState)
  | set (body : List Item) (outer : List (List Item)) (item : Item)

/-- What a client gets: the variant in the reply to a Get, or the success of a Set; `readOnly` is the
    error of sd-bus itself. -/
inductive Answer where
  | value (variant : Item)
  | set (outcome : SetOutcome)
  | readOnly

/-- sd-bus closes the variant of a reply only around one complete value. -/
def closeVariant (calls : List Call) : Option Item :=
  match build (calls ++ [.closeContainer]) with
  | some [.container .variant s [i]] => some (.container .variant s [i])
  | _ => none

section requests
variable (rt : Runtime) (tb : Tables) (dup : ℤ → Except String ℤ) (sd : SdBus) (emit : Property → ℤ)

/-- The variant that the getter is asked to fill. -/
def answerGet (self : Property) (reply : AppendState) : Option Item :=
  match getHandler rt sd self reply with
  | .ok r reply' => if r.rv < 0 ∨ r.retError.isSome = true then none else closeVariant reply'.calls
  | .error _ _ => none

/-- The property after a request, and the answer. If a handler raises or the reply cannot be closed,
    `process_bus` raises, and nothing more is served. A property that is not writable sd-bus does not
    set. -/
def serve (self : Property) : Request → Option (Property × Answer)
  | .get reply => (answerGet rt sd self reply).map fun variant => (self, .value variant)
  | .set body outer item =>
    match self.setter with
    | none => some (self, .readOnly)
    | some setter =>
      match setHandler rt tb dup emit setter (self, cursorAt body ([item] :: outer)) with
      | .ok o s => some (s.1, .set o)
      | .error _ _ => none

def serveAll : Property → List Request → Option (Property × List Answer)
  | self, [] => some (self, [])
  | self, r :: rs => (serve rt tb dup sd emit self r).bind fun p =>
    (serveAll p.1 rs).map fun q => (q.1, p.2 :: q.2)

end requests

/-- What a Set leaves stored. -/
def stored (tb : Tables) (dup : ℤ → Except String ℤ) (old : Janet) (item : Item) : Janet :=
  if deepEq old (decode tb dup item) then old else decode tb dup item

section set
variable {rt : Runtime} {tb : Tables} {dup : ℤ → Except String ℤ} {sd : SdBus} {emit : Property → ℤ}

/-- `message-read :rest` in the variant of a Set. -/
theorem messageRead_rest {t : Ty} {i : Item} (hty : Item.HasTy t i) (hread : validItem (readable dup) i = true)
    (body : List Item) (outer : List (List Item)) :
    cfunMessageRead rt tb dup .rest (cursorAt body ([i] :: outer)) =
      .ok (decode tb dup i) (cursorAt body ([] :: outer)) := by
  have hfuel : Item.size i + 2 ≤ (cursorAt body ([i] :: outer)).fuel := by
    have hdef : (cursorAt body ([i] :: outer)).fuel =
        sizeAll body + (Item.size i + sizeAll outer.flatten) + 2 := rfl
    omega
  have hsize : 0 < Item.size i := by cases i <;> simp [Item.size]
  rw [cfunMessageRead]
  refine read_bind (s := cursorAt body ([i] :: outer)) rfl ?_
  have hone : ∀ j ∈ [i], Reads tb dup (readCompleteType rt tb dup (cursorAt body ([i] :: outer)).fuel) body j := by
    intro j hj
    obtain rfl := List.mem_singleton.mp hj
    exact readCompleteType_item _ hty hread (by omega)
  exact read_bind (readWhile_items tb dup (readCompleteType_end (by omega)) hone
    (by rw [List.length_singleton]; omega)) rfl

variable (rt tb) in
/-- What a Set does, unless it has to signal a change and cannot. -/
theorem setHandler_set {t : Ty} {i : Item} (hty : Item.HasTy t i) (hread : validItem (readable dup) i = true)
    (self : Property) (setter : Setter) (body : List Item) (outer : List (List Item))
    (hemit : setter = .propertySetterWithSignal → deepEq self.value (decode tb dup i) = false →
      ¬ emit { self with value := decode tb dup i } < 0) :
    setHandler rt tb dup emit setter (self, cursorAt body ([i] :: outer)) =
      .ok ⟨⟨0, none⟩, if setter = .propertySetterWithSignal ∧ ¬ deepEq self.value (decode tb dup i) = true
          then 1 else 0⟩
        ({ self with value := stored tb dup self.value i }, cursorAt body ([] :: outer)) := by
  have hnil : janetIsNil (decode tb dup i) = false := by
    have hne := decode_ne_nil tb hread
    cases hv : decode tb dup i with
    | nil => exact absurd hv hne
    | _ => rfl
  simp only [setHandler, propertyHandlerCore, propertyWrapper, propertySetter, messageRead_rest hty hread,
    stored]
  cases hequal : deepEq self.value (decode tb dup i) with
  | true => cases setter <;> rfl
  | false =>
    cases setter with
    | propertySetter => simp [hnil]
    | propertySetterWithSignal => simp [hnil, emitPropertiesChanged, hemit rfl hequal]

theorem serve_set {t : Ty} {i : Item} (hty : Item.HasTy t i) (hread : validItem (readable dup) i = true)
    {self : Property} {setter : Setter} (hsetter : self.setter = some setter) (body : List Item)
    (outer : List (List Item))
    (hemit : setter = .propertySetterWithSignal → deepEq self.value (decode tb dup i) = false →
      ¬ emit { self with value := decode tb dup i } < 0) :
    serve rt tb dup sd emit self (.set body outer i) =
      some ({ self with value := stored tb dup self.value i }, .set ⟨⟨0, none⟩,
        if setter = .propertySetterWithSignal ∧ ¬ deepEq self.value (decode tb dup i) = true then 1 else 0⟩) := by
  simp only [serve, hsetter, setHandler_set rt tb hty hread self setter body outer hemit]

/-- A Set whose signal cannot be emitted raises. -/
theorem serve_set_raises {t : Ty} {i : Item} (hty : Item.HasTy t i) (hread : validItem (readable dup) i = true)
    {self : Property} (hsetter : self.setter = some .propertySetterWithSignal) (body : List Item)
    (outer : List (List Item)) (hequal : deepEq self.value (decode tb dup i) = false)
    (hemit : emit { self with value := decode tb dup i } < 0) :
    serve rt tb dup sd emit self (.set body outer i) = none := by
  have hnil : janetIsNil (decode tb dup i) = false := by
    have hne := decode_ne_nil tb hread
    cases hv : decode tb dup i with
    | nil => exact absurd hv hne
    | _ => rfl
  simp [serve, hsetter, setHandler, propertyHandlerCore, propertyWrapper, propertySetter,
    messageRead_rest hty hread, hequal, hnil, emitPropertiesChanged, hemit]

/-! ### Get after Set -/

/-- A stored value stands for a value of the type. -/
def StandsFor (rt : Runtime) (t : Ty) (v : Janet) (i : Item) : Prop :=
  ∃ j, denote rt t v = some j ∧ Item.Same j i

/-- After a Set without arrays of bytes the stored value stands for the value that was set. -/
theorem stored_standsFor {t : Ty} {i : Item} (hty : Item.HasTy t i) (hsend : Sendable i)
    (hbytes : noBytes i = true) (old : Janet) : StandsFor rt t (stored tb dup old i) i := by
  obtain ⟨j, hspell, hsame⟩ := decode_spelled tb dup hty hsend hbytes
  rw [stored]
  split
  · next hequal =>
    obtain ⟨k, hk, hkj⟩ := same_of_deepEq hspell old hequal
    exact ⟨k, hk, same_trans hkj i hsame⟩
  · exact ⟨j, hspell.denote, hsame⟩

/-- A request that a client can make: sd-bus opens the variant of a Get, and a Set carries a value of the
    type. -/
def Admissible (valid : Basic → Bool) (t : Ty) : Request → Prop
  | .get reply => reply.calls = [.openContainer .variant t.render]
  | .set _ _ i => Item.HasTy t i ∧ Sendable i ∧ validItem valid i = true

end set

section get
variable {rt : Runtime} {tb : Tables} {dup : ℤ → Except String ℤ} {sd : SdBus} {valid : Basic → Bool}

/-- A Get of a value that stands for an item writes the item, in the variant of the reply. -/
theorem getHandler_returns (hsd : Judges sd valid) {t : Ty} {bs : List UInt8} (hbs : chars bs = t.render)
    {self : Property} (hsig : self.sig = .string bs) {j : Item} (hj : denote rt t self.value = some j)
    (hvalid : validItem valid j = true) {reply : AppendState}
    (hreply : reply.calls = [.openContainer .variant t.render]) :
    ∃ reply', propertyGetter rt sd self reply = .ok .nil reply' ∧
      getHandler rt sd self reply = .ok ⟨0, none⟩ reply' ∧
      build (reply'.calls ++ [.closeContainer]) = some [.container .variant t.render [j]] := by
  have hty : Item.HasTy t j := denote_hasTy self.value t j hj
  have hfields : denoteFields rt [t] [self.value] = some [j] := by
    rw [denoteFields, hj, Option.bind_some, denoteFields, Option.map_some]
  have hall : chars bs = renderAll [t] := by rw [hbs, renderAll, renderAll, List.append_nil]
  have hacc : Accepted sd reply.calls (callsAll [j]) := by
    rw [callsAll, callsAll, List.append_nil]
    exact (accepted_item hsd hty _).mpr hvalid
  obtain ⟨reply', happend, hcalls⟩ := cfunMessageAppend_returns hall (by simp) hfields hacc
  have hget : propertyGetter rt sd self reply = .ok .nil reply' := by
    rw [propertyGetter, hsig]
    exact run_bind.mpr ⟨(), reply', happend, rfl⟩
  refine ⟨reply', hget, ?_, ?_⟩
  · simp only [getHandler, propertyHandlerCore, propertyWrapper, hget]
  · have hbuild := build_calls (.cons _ _ _ _ (.variant t j hty) .nil)
    rw [callsAll, callsAll, List.append_nil, calls, if_neg (by simp)] at hbuild
    rw [hcalls, hreply]
    exact hbuild

/-- What a property was given initially stands for something that sd-bus accepts. -/
theorem initial_accepted (hsd : Judges sd valid) {t : Ty} {bs : List UInt8} (hbs : chars bs = t.render)
    {value : Janet} {st st' : AppendState} (h : cfunMessageAppend rt sd (.string bs) [value] st = .ok () st') :
    ∃ i, denote rt t value = some i ∧ validItem valid i = true := by
  have hall : chars bs = renderAll [t] := by rw [hbs, renderAll, renderAll, List.append_nil]
  obtain ⟨_, _, q, hq⟩ := run_messageAppend.mp h
  rw [hall] at hq
  obtain ⟨us, is, hus, his, _, hacc⟩ := appendData_fits hsd.checks
    (Schemes.CMemory.alloc_str (r := []) (nul_not_mem_renderAll [t])) hq
  rw [← renderAll_inj hus] at his
  obtain ⟨i, hi, htail⟩ := Option.bind_eq_some_iff.mp (by rwa [denoteFields] at his)
  obtain ⟨js, hjs, rfl⟩ := Option.map_eq_some_iff.mp htail
  rw [denoteFields] at hjs
  rw [← Option.some.inj hjs, callsAll, callsAll, List.append_nil] at hacc
  exact ⟨i, hi, (accepted_item hsd (denote_hasTy value t i hi) _).mp hacc⟩

/-- A Get of a value that can be encoded is answered with it. -/
theorem answerGet_returns (hsd : Judges sd valid) {t : Ty} {bs : List UInt8} (hbs : chars bs = t.render)
    {self : Property} (hsig : self.sig = .string bs) {j : Item} (hj : denote rt t self.value = some j)
    (hvalid : validItem valid j = true) {reply : AppendState}
    (hreply : reply.calls = [.openContainer .variant t.render]) :
    answerGet rt sd self reply = some (.container .variant t.render [j]) := by
  obtain ⟨reply', -, hget, hbuild⟩ := getHandler_returns hsd hbs hsig hj hvalid hreply
  simp only [answerGet, hget, closeVariant, hbuild]
  rfl

/-! ### Emitting -/

/-- What the code relies on in `sd_bus_emit_properties_changed`: the signal of a property without the flag
    `h` is emitted if it only names the property (`i`), or if the getter fills the variant that it is
    given. -/
structure Announces (rt : Runtime) (sd : SdBus) (emit : Property → ℤ) : Prop where
  named : ∀ self, 104 ∉ self.flags → 105 ∈ self.flags → ¬ emit self < 0
  asked : ∀ self bs, self.sig = .string bs → 104 ∉ self.flags →
    (∀ reply, reply.calls = [.openContainer .variant (chars bs)] → (answerGet rt sd self reply).isSome = true) →
    ¬ emit self < 0

/-- The value has an encoding that sd-bus takes. -/
def Encodes (rt : Runtime) (valid : Basic → Bool) (t : Ty) (v : Janet) : Prop :=
  ∃ j, denote rt t v = some j ∧ validItem valid j = true

/-- A change to this value can be signalled. -/
def Announceable (rt : Runtime) (valid : Basic → Bool) (t : Ty) (flags : List UInt8) (v : Janet) : Prop :=
  104 ∉ flags ∧ (105 ∈ flags ∨ Encodes rt valid t v)

theorem Announceable.emits {emit : Property → ℤ} (hemit : Announces rt sd emit) (hsd : Judges sd valid) {t : Ty}
    {bs : List UInt8} (hbs : chars bs = t.render) (self : Property) (hsig : self.sig = .string bs)
    (h : Announceable rt valid t self.flags self.value) : ¬ emit self < 0 := by
  obtain ⟨hshown, hnamed | ⟨j, hj, hvalid⟩⟩ := h
  · exact hemit.named self hshown hnamed
  · refine hemit.asked self bs hsig hshown fun reply hreply => ?_
    rw [hbs] at hreply
    rw [answerGet_returns hsd hbs hsig hj hvalid hreply]
    rfl

/-- An sd-bus that builds the signal in fresh memory. -/
def emission (rt : Runtime) (sd : SdBus) (self : Property) : ℤ :=
  if 104 ∈ self.flags then -33
  else if 105 ∈ self.flags then 1
  else match self.sig with
    | .string bs => if (answerGet rt sd self (emptyReply (chars bs))).isSome then 1 else -22
    | _ => -22

theorem emission_announces (rt : Runtime) (sd : SdBus) : Announces rt sd (emission rt sd) where
  named self hshown hnamed := by simp [emission, hshown, hnamed]
  asked self bs hsig hshown hall := by
    have hsome := hall (emptyReply (chars bs)) rfl
    by_cases hnamed : (105 : UInt8) ∈ self.flags
    · simp [emission, hshown, hnamed]
    · simp [emission, hshown, hnamed, hsig, hsome]

/-! ### Gets between Sets -/

/-- Each request of the run can be answered: a Get if what was set last has no array of bytes in it
    (`encodable`), a Set if it changes nothing, or the change is not signalled, or it can be: the property
    is not hidden, and the signal only names it or the value has no array of bytes in it. -/
def Answerable (tb : Tables) (dup : ℤ → Except String ℤ) : Prop → Property → List Request → Prop
  | _, _, [] => True
  | encodable, self, .get _ :: rs => encodable ∧ Answerable tb dup encodable self rs
  | _, self, .set _ _ i :: rs =>
    (self.setter = some .propertySetterWithSignal → deepEq self.value (decode tb dup i) = true ∨
      104 ∉ self.flags ∧ (105 ∈ self.flags ∨ noBytes i = true)) ∧
    Answerable tb dup (noBytes i = true) { self with value := stored tb dup self.value i } rs

/-- Each Get is answered with the value that was set last, at first with `i`. -/
def ReturnsLast (t : Ty) : Item → List Request → List Answer → Prop
  | _, [], [] => True
  | i, .get _ :: rs, .value variant :: as =>
    (∃ j, variant = .container .variant t.render [j] ∧ Item.Same j i) ∧ ReturnsLast t i rs as
  | _, .set _ _ item :: rs, .set _ :: as => ReturnsLast t item rs as
  | _, _, _ => False

variable {tb : Tables} {dup : ℤ → Except String ℤ} {emit : Property → ℤ}

/-- A value without arrays of bytes can be encoded again. -/
theorem decode_encodes {t : Ty} {i : Item} (hty : Item.HasTy t i) (hsend : Sendable i)
    (hvalid : validItem valid i = true) (hbytes : noBytes i = true) : Encodes rt valid t (decode tb dup i) := by
  obtain ⟨j, hspell, hsame⟩ := decode_spelled tb dup hty hsend hbytes
  exact ⟨j, hspell.denote, valid_of_same hsame hvalid⟩

theorem serveAll_cons {self : Property} {r : Request} {rs : List Request} {p : Property × Answer}
    {q : Property × List Answer} (hserve : serve rt tb dup sd emit self r = some p)
    (hrest : serveAll rt tb dup sd emit p.1 rs = some q) :
    serveAll rt tb dup sd emit self (r :: rs) = some (q.1, p.2 :: q.2) := by
  rw [serveAll, hserve, Option.bind_some, hrest, Option.map_some]

variable (tb dup) in
theorem serveAll_returnsLast (hsd : Judges sd valid) (hemit : Announces rt sd emit) {t : Ty} {bs : List UInt8}
    (hbs : chars bs = t.render) : ∀ (rs : List Request) (encodable : Prop) (self : Property) (i : Item),
    self.sig = .string bs → self.setter.isSome = true → (∀ r ∈ rs, Admissible valid t r) →
    validItem valid i = true → (encodable → StandsFor rt t self.value i) → Answerable tb dup encodable self rs →
    ∃ self' as, serveAll rt tb dup sd emit self rs = some (self', as) ∧ ReturnsLast t i rs as
  | [], _, self, _, _, _, _, _, _, _ => ⟨self, [], rfl, trivial⟩
  | .get reply :: rs, encodable, self, i, hsig, hsetter, hall, hvalid, hstands, hrun => by
    obtain ⟨j, hj, hsame⟩ := hstands hrun.1
    have hanswer := answerGet_returns hsd hbs hsig hj (valid_of_same hsame hvalid) (hall _ List.mem_cons_self)
    obtain ⟨self', as, hserve, hreturns⟩ := serveAll_returnsLast hsd hemit hbs rs encodable self i hsig hsetter
      (fun r hr => hall r (List.mem_cons_of_mem _ hr)) hvalid hstands hrun.2
    have hget : serve rt tb dup sd emit self (.get reply) = some (self, .value (.container .variant t.render [j])) := by
      rw [serve, hanswer, Option.map_some]
    exact ⟨self', _, serveAll_cons hget hserve, ⟨j, rfl, hsame⟩, hreturns⟩
  | .set body outer item :: rs, _, self, _, hsig, hsetter, hall, _, _, hrun => by
    obtain ⟨hty, hsend, hvalid⟩ := hall _ List.mem_cons_self
    have hread : validItem (readable dup) item = true := validItem_mono readable_of_notFd item hsend.fds
    obtain ⟨setter, hsome⟩ := Option.isSome_iff_exists.mp hsetter
    have hsent : setter = .propertySetterWithSignal → deepEq self.value (decode tb dup item) = false →
        ¬ emit { self with value := decode tb dup item } < 0 := by
      rintro rfl hequal
      obtain hsame | ⟨hshown, hnamed⟩ := hrun.1 hsome
      · rw [hequal] at hsame
        exact Bool.noConfusion hsame
      · exact Announceable.emits hemit hsd hbs { self with value := decode tb dup item } hsig
          ⟨hshown, hnamed.imp_right (decode_encodes hty hsend hvalid)⟩
    obtain ⟨self', as, hserve, hreturns⟩ := serveAll_returnsLast hsd hemit hbs rs (noBytes item = true)
      { self with value := stored tb dup self.value item } item hsig hsetter
      (fun r hr => hall r (List.mem_cons_of_mem _ hr)) hvalid
      (fun hbytes => stored_standsFor hty hsend hbytes self.value) hrun.2
    have hset : serve rt tb dup sd emit self (.set body outer item) = _ :=
      serve_set hty hread hsome body outer hsent
    exact ⟨self', _, serveAll_cons hset hserve, hreturns⟩

/-- In every run of requests on a writable property that can all be answered, each Get succeeds and returns
    the value of the last Set before it, or the initial value if there was none. -/
theorem gets_return_last_set (rt : Runtime) (tb : Tables) (dup : ℤ → Except String ℤ) (sd : SdBus)
    (valid : Basic → Bool) (hsd : Judges sd valid) (emit : Property → ℤ) (hemit : Announces rt sd emit) (t : Ty)
    (bs : List UInt8) (hbs : chars bs = t.render) (value : Janet) (flags : List UInt8) (self : Property)
    (hself : property (.string bs) value flags = .ok self) (hw : 119 ∈ flags) (st st' : AppendState)
    (haccept : cfunMessageAppend rt sd (.string bs) [value] st = .ok () st') (rs : List Request)
    (hrs : ∀ r ∈ rs, Admissible valid t r) (hrun : Answerable tb dup True self rs) :
    ∃ i₀ self' as, denote rt t value = some i₀ ∧ serveAll rt tb dup sd emit self rs = some (self', as) ∧
      ReturnsLast t i₀ rs as := by
  obtain ⟨i₀, hi₀, hvalid⟩ := initial_accepted hsd hbs haccept
  have hsetter := (setter_isSome hself).mpr hw
  obtain ⟨hsig, hvalue⟩ : self.sig = .string bs ∧ self.value = value := by
    rw [(property_ok hself).2]
    exact ⟨rfl, rfl⟩
  obtain ⟨self', as, hserve, hreturns⟩ := serveAll_returnsLast tb dup hsd hemit hbs rs True self i₀ hsig hsetter
    hrs hvalid (fun _ => ⟨i₀, by rwa [hvalue], .refl i₀⟩) hrun
  exact ⟨i₀, self', as, hi₀, hserve, hreturns⟩

theorem checkingBus_judges : Judges checkingBus fun _ => true where
  contents hist k s := by simp [checkingBus_accepts hist]
  close hist := by simp [checkingBus]
  array hist bs := by simp [checkingBus]
  basic hist x := by cases x <;> simp [checkingBus, basicCall]
  byte _ := rfl

/-- A property of strings that is read, set and read again. -/
theorem gets_return_last_set_string : ∃ i₀ self' as,
    denote silentRuntime (.basic .string) (.string [104]) = some i₀ ∧
    serveAll silentRuntime frontTables (fun _ => .error "") checkingBus (emission silentRuntime checkingBus)
      ⟨[119, 101], true, .string [115], .string [104]⟩
      [.get (emptyReply ['s']), .set [] [] (.basic (.string hi)), .get (emptyReply ['s'])] = some (self', as) ∧
    ReturnsLast (.basic .string) i₀
      [.get (emptyReply ['s']), .set [] [] (.basic (.string hi)), .get (emptyReply ['s'])] as :=
  gets_return_last_set silentRuntime frontTables (fun _ => .error "") checkingBus (fun _ => true)
    checkingBus_judges (emission silentRuntime checkingBus) (emission_announces silentRuntime checkingBus)
    (.basic .string) [115] rfl (.string [104]) [119, 101] _ rfl (by decide) (initial []) _ rfl _
    (by
      intro r hr
      simp only [List.mem_cons, List.not_mem_nil, or_false] at hr
      rcases hr with rfl | rfl | rfl
      · rfl
      · exact ⟨.basic (.string hi), ⟨rfl, rfl, rfl⟩, rfl⟩
      · rfl)
    ⟨trivial, fun _ => .inr ⟨by decide, .inr rfl⟩, rfl, trivial⟩

/-- A property of bytes is accepted and read; once it is set to the byte 1 its getter raises, sd-bus
    cannot close the reply, and the Get is not answered. -/
theorem get_after_bytes :
    (∃ st', cfunMessageAppend silentRuntime checkingBus (.string [97, 121]) [.string [0]] (initial []) =
      .ok () st') ∧
    (∀ r ∈ [Request.set [] [] (bytesItem [1]), .get (emptyReply ['a', 'y'])],
      Admissible (fun _ => true) (.array (.basic .byte)) r) ∧
    (∃ self', serveAll silentRuntime frontTables (fun _ => .error "") checkingBus
        (emission silentRuntime checkingBus) ⟨[119], true, .string [97, 121], .string [0]⟩
        [.set [] [] (bytesItem [1])] = some (self', [.set ⟨⟨0, none⟩, 0⟩]) ∧
      ∃ err reply', propertyGetter silentRuntime checkingBus self' (emptyReply ['a', 'y']) =
        .error (.panic err) reply') ∧
    serveAll silentRuntime frontTables (fun _ => .error "") checkingBus (emission silentRuntime checkingBus)
      ⟨[119], true, .string [97, 121], .string [0]⟩
      [.set [] [] (bytesItem [1]), .get (emptyReply ['a', 'y'])] = none := by
  refine ⟨⟨_, rfl⟩, ?_, ⟨_, rfl, _, _, rfl⟩, rfl⟩
  intro r hr
  simp only [List.mem_cons, List.not_mem_nil, or_false] at hr
  rcases hr with rfl | rfl
  · exact ⟨bytesItem_hasTy [1], ⟨rfl, rfl, rfl⟩, rfl⟩
  · rfl

end get

/-! ### Changes -/

/-- The values have the same encoding, or neither has one. -/
def SameEncoding (rt : Runtime) (t : Ty) (v w : Janet) : Prop :=
  Option.Rel Item.Same (denote rt t v) (denote rt t w)

/-- The value is spelled as the decoder spells it, and there is no NaN in it. -/
def Comparable (t : Ty) (v : Janet) : Prop := ∃ j, Spells t v j ∧ validItem notNan j = true

/-- The item can be read. If it decodes to the encoding of the stored value, then the stored value is
    comparable; if not, the change can be signalled. -/
structure Discernible (rt : Runtime) (tb : Tables) (dup : ℤ → Except String ℤ) (valid : Basic → Bool) (t : Ty)
    (flags : List UInt8) (old : Janet) (i : Item) : Prop where
  readable : validItem (readable dup) i = true
  comparable : SameEncoding rt t old (decode tb dup i) → Comparable t old
  announceable : ¬ SameEncoding rt t old (decode tb dup i) → Announceable rt valid t flags (decode tb dup i)

/-- A Set of a run: what was stored before it and after it, and how many signals it emitted. -/
structure Change where
  before : Janet
  emitted : ℕ
  after : Janet

section changes
variable (rt : Runtime) (tb : Tables) (dup : ℤ → Except String ℤ) (sd : SdBus) (emit : Property → ℤ)

/-- The Sets of a run. -/
def changes : Property → List Request → Option (List Change)
  | _, [] => some []
  | self, r :: rs => (serve rt tb dup sd emit self r).bind fun p =>
    (changes p.1 rs).map fun cs =>
      match p.2 with
      | .set outcome => ⟨self.value, outcome.emitted, p.1.value⟩ :: cs
      | .value _ | .readOnly => cs

/-- Every Set of the run is discernible from what is stored when it comes in, and what a Get asks for can
    be encoded. -/
def AllDiscernible (valid : Basic → Bool) (t : Ty) (flags : List UInt8) : Janet → List Request → Prop
  | _, [] => True
  | old, .get _ :: rs => Encodes rt valid t old ∧ AllDiscernible valid t flags old rs
  | old, .set _ _ i :: rs =>
    Discernible rt tb dup valid t flags old i ∧ AllDiscernible valid t flags (stored tb dup old i) rs

end changes

/-- A request that a client can make, whatever values of the type it sets. -/
def Typed (t : Ty) : Request → Prop
  | .get reply => reply.calls = [.openContainer .variant t.render]
  | .set _ _ i => Item.HasTy t i

/-- Exactly one signal for a new encoding, and none otherwise. -/
def Signalled (rt : Runtime) (t : Ty) (c : Change) : Prop :=
  (SameEncoding rt t c.before c.after ∧ c.emitted = 0) ∨
    (¬ SameEncoding rt t c.before c.after ∧ c.emitted = 1)

section signals
variable {rt : Runtime} {tb : Tables} {dup : ℤ → Except String ℤ} {sd : SdBus} {valid : Basic → Bool}
  {emit : Property → ℤ}

theorem SameEncoding.refl {t : Ty} (v : Janet) : SameEncoding rt t v v := by
  rw [SameEncoding]
  cases denote rt t v with
  | none => exact .none
  | some i => exact .some (.refl i)

/-- A value of the same encoding as a comparable one decodes to a value that is structurally equal. -/
theorem deepEq_of_sameEncoding {t : Ty} {flags : List UInt8} {i : Item} {old : Janet} (hty : Item.HasTy t i)
    (h : Discernible rt tb dup valid t flags old i) (hsame : SameEncoding rt t old (decode tb dup i)) :
    deepEq old (decode tb dup i) = true := by
  obtain ⟨j, hspell, hnan⟩ := h.comparable hsame
  rw [SameEncoding, hspell.denote] at hsame
  cases hdecode : denote rt t (decode tb dup i) with
  | none => rw [hdecode] at hsame; cases hsame
  | some k =>
    rw [hdecode] at hsame
    cases hsame with
    | some hjk => exact deepEq_of_same hspell hnan (decode_spells hty h.readable k hdecode) hjk

/-- What is stored is replaced if and only if the encoding changes. -/
theorem stored_signalled {t : Ty} {flags : List UInt8} {i : Item} {old : Janet} (hty : Item.HasTy t i)
    (h : Discernible rt tb dup valid t flags old i) :
    Signalled rt t ⟨old, if deepEq old (decode tb dup i) = true then 0 else 1, stored tb dup old i⟩ := by
  by_cases hequal : deepEq old (decode tb dup i) = true
  · rw [stored, if_pos hequal, if_pos hequal]
    exact .inl ⟨.refl old, rfl⟩
  · rw [stored, if_neg hequal, if_neg hequal]
    exact .inr ⟨fun hsame => hequal (deepEq_of_sameEncoding hty h hsame), rfl⟩

variable (tb dup) in
theorem changes_signalled (hsd : Judges sd valid) (hemit : Announces rt sd emit) {t : Ty} {bs : List UInt8}
    (hbs : chars bs = t.render) : ∀ (rs : List Request) (self : Property), self.sig = .string bs →
    self.setter = some .propertySetterWithSignal → (∀ r ∈ rs, Typed t r) →
    AllDiscernible rt tb dup valid t self.flags self.value rs →
    ∃ cs, changes rt tb dup sd emit self rs = some cs ∧ ∀ c ∈ cs, Signalled rt t c
  | [], _, _, _, _, _ => ⟨[], rfl, fun c hc => absurd hc (List.not_mem_nil)⟩
  | .get reply :: rs, self, hsig, hsetter, htyped, hall => by
    obtain ⟨⟨j, hj, hvalid⟩, hrest⟩ := hall
    have hanswer := answerGet_returns hsd hbs hsig hj hvalid (htyped _ List.mem_cons_self)
    obtain ⟨cs, hcs, hsignalled⟩ := changes_signalled hsd hemit hbs rs self hsig hsetter
      (fun r hr => htyped r (List.mem_cons_of_mem _ hr)) hrest
    refine ⟨cs, ?_, hsignalled⟩
    rw [changes, serve, hanswer, Option.map_some, Option.bind_some, hcs, Option.map_some]
  | .set body outer item :: rs, self, hsig, hsetter, htyped, hall => by
    obtain ⟨hitem, hrest⟩ := hall
    have hty : Item.HasTy t item := htyped _ List.mem_cons_self
    have hsent : Setter.propertySetterWithSignal = .propertySetterWithSignal →
        deepEq self.value (decode tb dup item) = false → ¬ emit { self with value := decode tb dup item } < 0 := by
      intro _ hequal
      refine Announceable.emits hemit hsd hbs { self with value := decode tb dup item } hsig
        (hitem.announceable fun hsame => ?_)
      rw [deepEq_of_sameEncoding hty hitem hsame] at hequal
      exact Bool.noConfusion hequal
    obtain ⟨cs, hcs, hsignalled⟩ := changes_signalled hsd hemit hbs rs
      { self with value := stored tb dup self.value item } hsig hsetter
      (fun r hr => htyped r (List.mem_cons_of_mem _ hr)) hrest
    have hset : serve rt tb dup sd emit self (.set body outer item) = _ :=
      serve_set hty hitem.readable hsetter body outer hsent
    refine ⟨_, by rw [changes, hset, Option.bind_some, hcs, Option.map_some], fun c hc => ?_⟩
    rcases List.mem_cons.mp hc with rfl | hc
    · have hstep := stored_signalled hty hitem
      simp only [true_and, ite_not]
      exact hstep
    · exact hsignalled c hc

/-- In every run of requests on a property with the flags `w` and `e` or `i`, if every Set is
    discernible from what is stored and every Get can be answered, then each Set emits one signal if the
    encoding of the stored value changes, and none if it does not. -/
theorem set_signals_change (rt : Runtime) (tb : Tables) (dup : ℤ → Except String ℤ) (sd : SdBus)
    (valid : Basic → Bool) (hsd : Judges sd valid) (emit : Property → ℤ) (hemit : Announces rt sd emit) (t : Ty)
    (value : Janet) (flags : List UInt8) (self : Property)
    (hself : property (signatureString t.render) value flags = .ok self)
    (hflags : 119 ∈ flags ∧ (101 ∈ flags ∨ 105 ∈ flags)) (rs : List Request) (hrs : ∀ r ∈ rs, Typed t r)
    (hdiscernible : AllDiscernible rt tb dup valid t flags value rs) :
    ∃ cs, changes rt tb dup sd emit self rs = some cs ∧ ∀ c ∈ cs, Signalled rt t c := by
  have hsetter := (setter_withSignal hself).mpr hflags
  obtain ⟨-, rfl⟩ := property_ok hself
  exact changes_signalled tb dup hsd hemit (chars_render t) rs _ rfl hsetter hrs hdiscernible

/-- A property of an array of strings. -/
def strings (value : Janet) : Property := ⟨[101, 119], true, .string [97, 115], value⟩

def hiItem : Item := .container .array ['s'] [.basic (.string hi)]

theorem hiItem_typed : Item.HasTy (.array (.basic .string)) hiItem :=
  .array (.basic .string) _ (.cons _ _ _ (.basic (.string hi)) (.nil _))

theorem set_signals_change_strings : ∃ cs, changes silentRuntime frontTables (fun _ => .error "") checkingBus
      (emission silentRuntime checkingBus) (strings (.array [])) [.set [] [] hiItem, .get (emptyReply ['a', 's'])] =
        some cs ∧
    ∀ c ∈ cs, Signalled silentRuntime (.array (.basic .string)) c := by
  refine set_signals_change silentRuntime frontTables (fun _ => .error "") checkingBus (fun _ => true)
    checkingBus_judges (emission silentRuntime checkingBus) (emission_announces silentRuntime checkingBus)
    (.array (.basic .string)) (.array []) [101, 119] _ rfl (by decide) _ ?_ ⟨⟨rfl, fun _ => ?_, fun _ => ?_⟩, ?_, trivial⟩
  · intro r hr
    simp only [List.mem_cons, List.not_mem_nil, or_false] at hr
    rcases hr with rfl | rfl
    · exact hiItem_typed
    · rfl
  · exact ⟨_, .array (.basic .string) [] [] rfl (.nil _), rfl⟩
  · exact ⟨by decide, .inr ⟨hiItem, rfl, rfl⟩⟩
  · exact ⟨hiItem, rfl, rfl⟩

/-- The initial value is a tuple; setting it to the same strings emits a signal. -/
theorem changes_tuple :
    property (signatureString (Ty.array (.basic .string)).render) (.tuple [.string [104, 105]]) [101, 119] =
      .ok (strings (.tuple [.string [104, 105]])) ∧
    denote silentRuntime (.array (.basic .string)) (.tuple [.string [104, 105]]) = some hiItem ∧
    ∃ c, changes silentRuntime frontTables (fun _ => .error "") checkingBus (emission silentRuntime checkingBus)
        (strings (.tuple [.string [104, 105]])) [.set [] [] hiItem] = some [c] ∧
      c.emitted = 1 ∧ SameEncoding silentRuntime (.array (.basic .string)) c.before c.after ∧
      ¬ Signalled silentRuntime (.array (.basic .string)) c := by
  have hsame : SameEncoding silentRuntime (.array (.basic .string)) (.tuple [.string [104, 105]])
      (.array [.string [104, 105]]) := Option.Rel.some (Item.Same.refl hiItem)
  refine ⟨rfl, rfl, ⟨.tuple [.string [104, 105]], 1, .array [.string [104, 105]]⟩, rfl, rfl, hsame, ?_⟩
  rintro (⟨_, hemitted⟩ | ⟨hne, _⟩)
  · exact absurd hemitted (by decide)
  · exact hne hsame

end signals

end JanetSdbus.Export
