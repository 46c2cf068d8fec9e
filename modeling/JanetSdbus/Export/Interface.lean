import JanetSdbus.Export.Property

/-! Interfaces as `method`, `property` and `signal` of `init.janet` make them.

    The constructors check flags against a set of letters; `export` reads them again and makes a row of
    each member. The sets of `method` and `signal` are strings that begin with a colon, so a colon passes
    them, and `export` knows no such flag. Nothing else that a constructor has made is refused: each
    member becomes one row, in order, with the bits of its letters, and a request for it is served as
    long as the dictionary has the member and nobody but `property-setter` has set a field of it
    (`export_constructed`). -/

namespace JanetSdbus.Export
open DBus Message

/-! ### Constructors -/

section constructors
variable (rt : Runtime)

/-- `(default x "")` -/
def orEmpty (x : Janet) : Janet := if janetIsNil x then .string [] else x

/-- `(string/check-set set str)` of a literal set. -/
def stringCheckSet (set : List UInt8) (str : Janet) : Except Stop Bool :=
  match janetBytesView str with
  | some bs => .ok (checkSet set bs)
  | none => .error (.panic ("bad slot #1, expected string|symbol|keyword|buffer, got " ++ rt.format_v str))

/-- `":dhsn"` -/
def methodFlags : List UInt8 := [58, 100, 104, 115, 110]

/-- `":dh"` -/
def signalFlags : List UInt8 := [58, 100, 104]

/-- The struct that `method` makes; `function` is the wrapper. -/
def methodEntry (inSignature outSignature : Janet) (function : ℕ) (flags : Janet) : Janet :=
  .struct [(.keyword (bytesOf "type"), .symbol (bytesOf "method")), (.keyword (bytesOf "flags"), flags),
    (.keyword (bytesOf "sig-in"), inSignature), (.keyword (bytesOf "sig-out"), outSignature),
    (.keyword (bytesOf "function"), .other function)]

def method (inSignature outSignature : Janet) (function : ℕ) (flags : Janet) : Except Stop Janet := do
  let flags := orEmpty flags
  if ← stringCheckSet rt methodFlags flags then
    pure (methodEntry (orEmpty inSignature) (orEmpty outSignature) function flags)
  else throw (.panic ("Invalid method flags: " ++ text ((janetBytesView flags).getD [])))

def signalEntry (signature flags : Janet) : Janet :=
  .struct [(.keyword (bytesOf "type"), .symbol (bytesOf "signal")), (.keyword (bytesOf "flags"), flags),
    (.keyword (bytesOf "sig"), signature)]

def signal (signature flags : Janet) : Except Stop Janet := do
  let flags := orEmpty flags
  if ← stringCheckSet rt signalFlags flags then pure (signalEntry signature flags)
  else throw (.panic ("Invalid signal flags: " ++ text ((janetBytesView flags).getD [])))

end constructors

/-! ### Definitions of members -/

/-- A string, a symbol or a keyword. -/
structure Bytes where
  value : Janet
  bytes : List UInt8
  unwrap : unwrapKeyword value = .ok bytes

/-- A use of a constructor, with the functions that it makes. -/
inductive Definition where
  | method (inSignature outSignature flags : Bytes) (function : ℕ)
  | property (signature flags : Bytes) (value : Janet) (getter setter : ℕ)
  | signal (signature flags : Bytes)

def Definition.build (rt : Runtime) : Definition → Except Stop Janet
  | .method inSignature outSignature flags function =>
    Export.method rt inSignature.value outSignature.value function flags.value
  | .property signature flags value getter setter =>
    (Export.property signature.value value flags.bytes).map fun self => self.entry getter setter
  | .signal signature flags => Export.signal rt signature.value flags.value

/-- What the dictionary holds are functions. -/
def Definition.Functions (host : Host) : Definition → Prop
  | .method _ _ _ function => host.isFunction function = true
  | .property _ _ _ getter setter => host.isFunction getter = true ∧ host.isFunction setter = true
  | .signal _ _ => True

/-- The same definition with another value; only properties have one. -/
def Definition.withValue (value : Janet) : Definition → Definition
  | .property signature flags _ getter setter => .property signature flags value getter setter
  | d => d

/-- The entry is what the definition makes, or would make with another value. -/
def Definition.Remains (rt : Runtime) (d : Definition) (entry : Janet) : Prop :=
  ∃ value, (d.withValue value).build rt = .ok entry

/-! ### What becomes of them -/

/-- As C sees the bytes. -/
def upToNul (bs : List UInt8) : List UInt8 := bs.takeWhile (· ≠ 0)

/-- The bits of all the letters. -/
def maskOf (flags : List UInt8) : List Flag := flags.flatMap fun c => (flagOf c).getD []

/-- `w`, and one of `e` and `i` to signal changes. -/
def declaredSetter (flags : List UInt8) : Option Setter :=
  if 119 ∈ flags then
    if 101 ∈ flags ∨ 105 ∈ flags then some .propertySetterWithSignal else some .propertySetter
  else none

def Definition.member : Definition → Member
  | .method inSignature outSignature _ _ => .method (upToNul inSignature.bytes) (upToNul outSignature.bytes)
  | .property signature flags _ _ _ => .property (upToNul signature.bytes) (declaredSetter flags.bytes)
  | .signal signature _ => .signal (upToNul signature.bytes)

def Definition.flags : Definition → List UInt8
  | .method _ _ flags _ | .property _ flags _ _ _ | .signal _ flags => flags.bytes

def Definition.row (d : Definition) (name : Bytes) : Row := ⟨upToNul name.bytes, d.member, maskOf d.flags⟩

/-- There is a colon among the flags. -/
def Definition.Colon (d : Definition) : Prop := 58 ∈ d.flags

instance (d : Definition) : Decidable d.Colon := List.instDecidableMemOfLawfulBEq _ _

/-! ### Flags -/

theorem sdBusFlags_letters : ∀ {flags : List UInt8}, (∀ c ∈ flags, (flagOf c).isSome = true) →
    sdBusFlags flags = .ok (maskOf flags)
  | [], _ => rfl
  | c :: cs, h => by
    obtain ⟨bits, hbits⟩ := Option.isSome_iff_exists.mp (h c List.mem_cons_self)
    have hrest := sdBusFlags_letters fun d hd => h d (List.mem_cons_of_mem _ hd)
    rw [sdBusFlags, hbits]
    simp only [hrest, Except.map, maskOf, List.flatMap_cons, hbits, Option.getD_some]

/-- The first colon stops it. -/
theorem sdBusFlags_colon : ∀ {flags : List UInt8}, (∀ c ∈ flags, c = 58 ∨ (flagOf c).isSome = true) →
    58 ∈ flags → sdBusFlags flags = .error (.panic "Unknown export flag: :")
  | c :: cs, h, hmem => by
    by_cases hc : c = 58
    · subst hc
      rfl
    · obtain ⟨bits, hbits⟩ := Option.isSome_iff_exists.mp ((h c List.mem_cons_self).resolve_left hc)
      have hcs : 58 ∈ cs := (List.mem_cons.mp hmem).resolve_left fun heq => hc heq.symm
      rw [sdBusFlags, hbits]
      simp only [sdBusFlags_colon (fun d hd => h d (List.mem_cons_of_mem _ hd)) hcs, Except.map]

theorem checkSet_iff {set str : List UInt8} : checkSet set str = true ↔ ∀ c ∈ str, c ∈ set := by
  simp only [checkSet, List.all_eq_true, decide_eq_true_eq]

/-- What passes the check of a constructor: letters that `export` knows, and the colon. -/
theorem letters_known {c : UInt8} (h : c ∈ methodFlags ∨ c ∈ signalFlags ∨ c ∈ propertyFlags) :
    c = 58 ∨ (flagOf c).isSome = true := by
  have hall : c ∈ [58, 100, 104, 115, 110, 114, 101, 105, 120, 119] := by
    simp only [methodFlags, signalFlags, propertyFlags, List.mem_cons, List.not_mem_nil, or_false] at h ⊢
    tauto
  simp only [List.mem_cons, List.not_mem_nil, or_false] at hall
  rcases hall with rfl | rfl | rfl | rfl | rfl | rfl | rfl | rfl | rfl | rfl
  · exact .inl rfl
  all_goals exact .inr rfl

/-- Known letters, and the colon. -/
def Known (flags : List UInt8) : Prop := ∀ c ∈ flags, c = 58 ∨ (flagOf c).isSome = true

theorem sdBusFlags_known {flags : List UInt8} (h : Known flags) : sdBusFlags flags =
    if 58 ∈ flags then .error (.panic "Unknown export flag: :") else .ok (maskOf flags) := by
  split
  · next hcolon => exact sdBusFlags_colon h hcolon
  · next hcolon =>
    refine sdBusFlags_letters fun c hc => (h c hc).resolve_left ?_
    rintro rfl
    exact hcolon hc

/-! ### Rows -/

section rows
variable {rt : Runtime} {host : Host}

theorem janetBytesView_unwrap {x : Janet} {bs : List UInt8} (h : unwrapKeyword x = .ok bs) :
    janetBytesView x = some bs := by
  cases x <;> simp_all [unwrapKeyword, janetBytesView]

theorem cstr_bytes (b : Bytes) : cstr b.value = .ok (upToNul b.bytes) := by
  rw [cstr, b.unwrap]
  rfl

theorem orEmpty_bytes (b : Bytes) : orEmpty b.value = b.value := by
  obtain ⟨x, bs, h⟩ := b
  cases x <;> first | rfl | simp [unwrapKeyword] at h

/-- A constructor of a struct, with flags of a set. -/
theorem checked_ok {set : List UInt8} {flags : Bytes} {entry made : Janet} {e : Stop}
    (h : (do
      if ← stringCheckSet rt set flags.value then pure made else throw e : Except Stop Janet) = .ok entry) :
    (∀ c ∈ flags.bytes, c ∈ set) ∧ entry = made := by
  rw [stringCheckSet, janetBytesView_unwrap flags.unwrap] at h
  obtain ⟨ok, hok, h⟩ := except_bind.mp h
  cases ok with
  | false => exact (not_throw h).elim
  | true => exact ⟨checkSet_iff.mp (Except.ok.inj hok), (Except.ok.inj h).symm⟩

theorem method_ok {i o flags : Bytes} {function : ℕ} {entry : Janet}
    (h : method rt i.value o.value function flags.value = .ok entry) :
    (∀ c ∈ flags.bytes, c ∈ methodFlags) ∧ entry = methodEntry i.value o.value function flags.value := by
  rw [method] at h
  simp only [orEmpty_bytes] at h
  exact checked_ok h

theorem signal_ok {sig flags : Bytes} {entry : Janet} (h : signal rt sig.value flags.value = .ok entry) :
    (∀ c ∈ flags.bytes, c ∈ signalFlags) ∧ entry = signalEntry sig.value flags.value := by
  rw [signal] at h
  simp only [orEmpty_bytes] at h
  exact checked_ok h

theorem ok_bind {α β : Type} (a : α) (f : α → Except Stop β) : (Except.ok a >>= f) = f a := rfl

theorem dictSymget_bytes {entry : Janet} {kvs : List (Janet × Janet)} {key : String} (b : Bytes)
    (hview : janetDictionaryView entry = some kvs) (h : dictionaryGet kvs (bytesOf key) = b.value) :
    dictSymget entry key = .ok b.value := by
  obtain ⟨x, bs, hx⟩ := b
  simp only [dictSymget, hview, h]
  cases x <;> first | rfl | simp [unwrapKeyword] at hx

/-- The flags decide. -/
theorem flags_decide {flags : Bytes} (h : Known flags.bytes) (member : List Flag → Row) :
    (do
      let keys ← unwrapKeyword flags.value
      let mask ← sdBusFlags keys
      pure (member mask) : Except Stop Row) =
    if 58 ∈ flags.bytes then .error (.panic "Unknown export flag: :") else .ok (member (maskOf flags.bytes)) := by
  rw [flags.unwrap, ok_bind, sdBusFlags_known h]
  split <;> rfl

theorem declaredSetter_eq {sig value : Janet} {flags : List UInt8} {self : Property}
    (h : property sig value flags = .ok self) : self.setter = declaredSetter flags := by
  have hsignal := setter_withSignal h
  have hsome := setter_isSome h
  rw [declaredSetter]
  split
  · next hw =>
    obtain ⟨s, hs⟩ := Option.isSome_iff_exists.mp (hsome.mpr hw)
    split
    · next he => exact hsignal.mpr ⟨hw, he⟩
    · next he =>
      cases s with
      | propertySetter => exact hs
      | propertySetterWithSignal => exact absurd (hsignal.mp hs).2 he
  · next hw =>
    rw [← hsome, Bool.not_eq_true, Option.isSome_eq_false_iff, Option.isNone_iff_eq_none] at hw
    exact hw

/-- A method's row, with its flags still to be read. -/
theorem createVtableMethod_built (name : List UInt8) (i o flags : Bytes) {function : ℕ}
    (hfun : host.isFunction function = true) :
    createVtableMethod host name (methodEntry i.value o.value function flags.value) = (do
      let keys ← unwrapKeyword flags.value
      let mask ← sdBusFlags keys
      pure ⟨name, .method (upToNul i.bytes) (upToNul o.bytes), mask⟩) := by
  have hfunction : dictSymget (methodEntry i.value o.value function flags.value) "function" =
    .ok (.other function) := rfl
  have hvalue : ¬ host.isFunctionValue (.other function) = false := by
    rw [Host.isFunctionValue, hfun]
    exact Bool.noConfusion
  rw [createVtableMethod, dictSymget_bytes i rfl rfl, ok_bind, cstr_bytes, ok_bind, dictSymget_bytes o rfl rfl,
    ok_bind, cstr_bytes, ok_bind, hfunction, ok_bind, if_neg hvalue, dictSymget_bytes flags rfl rfl, ok_bind]

theorem createVtableSignal_built (name : List UInt8) (sig flags : Bytes) :
    createVtableSignal name (signalEntry sig.value flags.value) = (do
      let keys ← unwrapKeyword flags.value
      let mask ← sdBusFlags keys
      pure ⟨name, .signal (upToNul sig.bytes), mask⟩) := by
  rw [createVtableSignal, dictSymget_bytes sig rfl rfl, ok_bind, cstr_bytes, ok_bind,
    dictSymget_bytes flags rfl rfl, ok_bind]

/-- No letter of a property is unknown. -/
theorem createVtableProperty_built (name : List UInt8) (sig : Bytes) {value : Janet} {flags : List UInt8}
    {self : Property} (h : property sig.value value flags = .ok self) (getter setter : ℕ) :
    createVtableProperty host name (self.entry getter setter) =
      .ok ⟨name, .property (upToNul sig.bytes) (declaredSetter flags), maskOf flags⟩ := by
  have hsetter := declaredSetter_eq h
  obtain ⟨hset, rfl⟩ := property_ok h
  have hmask : sdBusFlags flags = .ok (maskOf flags) := by
    refine sdBusFlags_letters fun c hc => ?_
    obtain ⟨bits, hbits, -⟩ := flagOf_property (hset c hc)
    rw [hbits]
    rfl
  rw [Property.setter, hmask] at hsetter
  have hflags : dictSymget (Property.entry ⟨flags, checkSet flags [119], sig.value, value⟩ getter setter) "flags" =
    .ok (.keyword flags) := rfl
  have hwritable : dictSymget (Property.entry ⟨flags, checkSet flags [119], sig.value, value⟩ getter setter)
    "writable" = .ok (.boolean (checkSet flags [119])) := rfl
  rw [createVtableProperty, dictSymget_bytes sig rfl rfl, ok_bind, cstr_bytes, ok_bind, hflags, ok_bind,
    unwrapKeyword, ok_bind, hmask, ok_bind, hwritable, ok_bind, Host.unwrap, ← hsetter]
  rfl

/-- Each member becomes its row, unless there is a colon among its flags. -/
theorem createRow_built {name : Bytes} (hname : host.memberNameIsValid (upToNul name.bytes) = true)
    {d : Definition} {entry : Janet} (hbuilt : d.build rt = .ok entry) (hfun : d.Functions host) :
    createRow host name.value entry =
      if d.Colon then .error (.panic "Unknown export flag: :") else .ok (d.row name) := by
  have hvalid : ¬ host.memberNameIsValid (upToNul name.bytes) = false := by rw [hname]; exact Bool.noConfusion
  rw [createRow, cstr_bytes, ok_bind, if_neg hvalid]
  cases d with
  | method i o flags function =>
    obtain ⟨hset, rfl⟩ := method_ok hbuilt
    refine (createVtableMethod_built (upToNul name.bytes) i o flags hfun).trans ?_
    exact flags_decide (fun c hc => letters_known (.inl (hset c hc))) _
  | property sig flags value getter setter =>
    obtain ⟨self, hself, rfl⟩ : ∃ self, property sig.value value flags.bytes = .ok self ∧
        self.entry getter setter = entry := by
      rw [Definition.build] at hbuilt
      cases hself : property sig.value value flags.bytes with
      | error e => rw [hself] at hbuilt; cases hbuilt
      | ok self => rw [hself] at hbuilt; exact ⟨self, rfl, Except.ok.inj hbuilt⟩
    have hcolon : ¬ Definition.Colon (.property sig flags value getter setter) := fun hmem => by
      have h := (property_ok hself).1 58 hmem
      revert h
      decide
    rw [if_neg hcolon]
    exact createVtableProperty_built (upToNul name.bytes) sig hself getter setter
  | signal sig flags =>
    obtain ⟨hset, rfl⟩ := signal_ok hbuilt
    refine (createVtableSignal_built (upToNul name.bytes) sig flags).trans ?_
    exact flags_decide (fun c hc => letters_known (.inr (.inl (hset c hc)))) _

/-! ### The interface -/

/-- A pair of the dictionary, and the definition that it comes from. -/
structure Built (rt : Runtime) (m : Bytes × Definition) (kv : Janet × Janet) : Prop where
  key : kv.1 = m.1.value
  build : m.2.build rt = .ok kv.2

/-- Names are valid, and functions are functions. -/
structure Definition.Fine (host : Host) (m : Bytes × Definition) : Prop where
  name : host.memberNameIsValid (upToNul m.1.bytes) = true
  functions : m.2.Functions host

def rowsOf (ms : List (Bytes × Definition)) : List Row := ms.map fun m => m.2.row m.1

theorem createVtable_built {len : ℕ} {ms : List (Bytes × Definition)} {kvs : List (Janet × Janet)}
    (hbuilt : List.Forall₂ (Built rt) ms kvs) (hfine : ∀ m ∈ ms, Definition.Fine host m) {i : ℕ}
    (hlen : i + ms.length < len) :
    createVtable host len i kvs =
      if ∃ m ∈ ms, m.2.Colon then .error (.panic "Unknown export flag: :") else .ok (rowsOf ms) := by
  induction hbuilt generalizing i with
  | nil =>
    rw [createVtable, if_neg (by simp)]
    rfl
  | @cons m kv ms kvs hm _ ih =>
    rw [List.length_cons] at hlen
    have hroom : ¬ len - 1 ≤ i := by omega
    have hrow : createRow host kv.1 kv.2 =
        if m.2.Colon then .error (.panic "Unknown export flag: :") else .ok (m.2.row m.1) := by
      rw [hm.key]
      exact createRow_built (hfine m List.mem_cons_self).name hm.build (hfine m List.mem_cons_self).functions
    have hlen' : i + 1 + ms.length < len := by omega
    have hrest := ih (fun m' h => hfine m' (List.mem_cons_of_mem _ h)) hlen'
    simp only [createVtable, if_neg hroom, hrow, List.exists_mem_cons_iff]
    by_cases hcolon : m.2.Colon
    · rw [if_pos hcolon, if_pos (.inl hcolon)]
      rfl
    · rw [if_neg hcolon, ok_bind, hrest]
      by_cases hmore : ∃ m ∈ ms, m.2.Colon
      · rw [if_pos hmore, if_pos (.inr hmore)]
        rfl
      · rw [if_neg hmore, if_neg (not_or.mpr ⟨hcolon, hmore⟩)]
        rfl

/-- A handler finds its function in what a constructor has made. -/
theorem hasFunction_built {d : Definition} {entry : Janet} (hbuilt : d.build rt = .ok entry)
    (hfun : d.Functions host) {name : Bytes} {handler : Handler} (hmem : handler ∈ (d.row name).handlers) :
    HasFunction host entry handler.field := by
  cases d with
  | method i o flags function =>
    obtain ⟨-, rfl⟩ := method_ok hbuilt
    obtain rfl := List.mem_singleton.mp hmem
    exact ⟨.other function, rfl, hfun⟩
  | property sig flags value getter setter =>
    rw [Definition.build] at hbuilt
    cases hself : property sig.value value flags.bytes with
    | error e => rw [hself] at hbuilt; cases hbuilt
    | ok self =>
      rw [hself] at hbuilt
      obtain rfl := Except.ok.inj hbuilt
      cases handler with
      | methodHandler =>
        rw [Definition.row, Definition.member] at hmem
        cases hs : declaredSetter flags.bytes <;> simp [Row.handlers, hs] at hmem
      | propertyGetter => exact ⟨.other getter, rfl, hfun.1⟩
      | propertySetter => exact ⟨.other setter, rfl, hfun.2⟩
  | signal sig flags => exact absurd hmem List.not_mem_nil

theorem withValue_row (d : Definition) (value : Janet) (name : Bytes) : (d.withValue value).row name = d.row name := by
  cases d <;> rfl

theorem withValue_functions {d : Definition} (h : d.Functions host) (value : Janet) :
    (d.withValue value).Functions host := by
  cases d <;> exact h

/-- `property-setter` sets the value and nothing else, so the entry remains what its definition makes. -/
theorem propertySetter_remains {tb : Tables} {dup : ℤ → Except String ℤ} {signature flags : Bytes} {value v : Janet}
    {getter setter : ℕ} {self self' : Property} {msg msg' : Reader}
    (hself : property signature.value value flags.bytes = .ok self)
    (hset : propertySetter rt tb dup (self, msg) = .ok v (self', msg')) :
    Definition.Remains rt (.property signature flags value getter setter) (self'.entry getter setter) := by
  have hvalue : self' = { self with value := self'.value } := by
    rw [propertySetter] at hset
    split at hset
    · cases hset
    · split at hset
      · obtain ⟨-, hs⟩ := EStateM.Result.ok.inj hset
        rw [← (Prod.mk.inj hs).1]
      · obtain ⟨-, hs⟩ := EStateM.Result.ok.inj hset
        rw [← (Prod.mk.inj hs).1]
  refine ⟨self'.value, ?_⟩
  rw [property] at hself
  split at hself
  · cases hself
  · next hflags =>
    obtain rfl := Except.ok.inj hself
    rw [Definition.withValue, Definition.build, property, if_neg hflags, hvalue]
    rfl

end rows

/-- A method with a flag, and a signal whose flags are spelled as the set of letters is. -/
def helloDefinitions (flags : List UInt8) : List (Bytes × Definition) :=
  [(⟨.keyword (bytesOf "Hello"), _, rfl⟩, .method ⟨.string [], _, rfl⟩ ⟨.string [115], _, rfl⟩ ⟨.keyword [100], _, rfl⟩ 0),
    (⟨.keyword (bytesOf "Bye"), _, rfl⟩, .signal ⟨.string [115], _, rfl⟩ ⟨.string flags, _, rfl⟩)]

def helloMembers : Members where
  kvs := [(.keyword (bytesOf "Hello"), 0), (.keyword (bytesOf "Bye"), 1)]
  isTable := false
  distinct := by simp [bytesOf]; decide

/-- What its two objects hold. -/
def helloHeap (flags : List UInt8) : ℕ → Janet
  | 0 => methodEntry (.string []) (.string [115]) 0 (.keyword [100])
  | _ => signalEntry (.string [115]) (.string flags)

end JanetSdbus.Export
