import JanetSdbus.Message.Walker

/-! Exporting an interface: `create_vtable` and `export` of `export.c`, and the lookups that the
    handlers make when a request comes in.

    The rows of the vtable are made from the pairs of a dictionary, whatever its keys are; a handler
    looks the member up again, by keyword, in the dictionary as it is then. The entries are objects, so
    an entry stays the same entry when its fields are set. A request finds its way back to the entry if
    that is still under the keyword, and finds a function there if the member is a method that nobody has
    touched (`export_serves_iff`). -/

namespace JanetSdbus.Export
open DBus Message

/-! ### Casts and lookups -/

/-- What the model leaves to Janet and to sd-bus. -/
structure Host where
  /-- Which values are functions. -/
  isFunction : ℕ → Bool
  /-- `janet_unwrap_boolean` of a value that is no boolean. -/
  unwrapBoolean : Janet → Bool
  memberNameIsValid : List UInt8 → Bool
  objectPathIsValid : List UInt8 → Bool
  interfaceNameIsValid : List UInt8 → Bool

def bytesOf (s : String) : List UInt8 := s.toUTF8.data.toList

def text (bs : List UInt8) : String := String.ofList (bs.map Char.ofUInt8)

/-- `janet_unwrap_keyword`, which looks at no type: bytes are bytes, and anything else is not. -/
def unwrapKeyword : Janet → Except Stop (List UInt8)
  | .string bs | .symbol bs | .keyword bs => .ok bs
  | _ => .error .fault

/-- `cstr`: the bytes up to the first NUL. -/
def cstr (x : Janet) : Except Stop (List UInt8) := (unwrapKeyword x).map (·.takeWhile (· ≠ 0))

/-- `janet_symeq` -/
def symeq : Janet → String → Bool
  | .symbol bs, s => bs.takeWhile (· ≠ 0) = bytesOf s
  | _, _ => false

/-- `janet_dictionary_get` of a keyword. -/
def dictionaryGet (kvs : List (Janet × Janet)) (keyword : List UInt8) : Janet :=
  match kvs.find? fun kv => kv.1.sameAtom (.keyword keyword) with
  | some kv => kv.2
  | none => .nil

/-- `dict_symget`; the view of what is no dictionary is not initialised. -/
def dictSymget (dict : Janet) (key : String) : Except Stop Janet :=
  match janetDictionaryView dict with
  | none => .error .fault
  | some kvs =>
    match dictionaryGet kvs (bytesOf key) with
    | .nil => .error (.panic ("Missing required field: " ++ key))
    | value => .ok value

/-! ### Flags -/

inductive Flag where
  | deprecated
  | hidden
  | sensitive
  | methodNoReply
  | propertyConst
  | propertyEmitsChange
  | propertyEmitsInvalidation
  | propertyExplicit
  deriving DecidableEq

/-- The bits that one letter sets. -/
def flagOf (c : UInt8) : Option (List Flag) :=
  if c = 100 then some [.deprecated] -- 'd'
  else if c = 104 then some [.hidden] -- 'h'
  else if c = 115 then some [.sensitive] -- 's'
  else if c = 110 then some [.methodNoReply] -- 'n'
  else if c = 114 then some [.propertyConst] -- 'r'
  else if c = 101 then some [.propertyEmitsChange] -- 'e'
  else if c = 105 then some [.propertyEmitsInvalidation] -- 'i'
  else if c = 120 then some [.propertyExplicit] -- 'x'
  else if c = 119 then some [] -- 'w'
  else none

/-- `sd_bus_flags`: the bits that are set. -/
def sdBusFlags : List UInt8 → Except Stop (List Flag)
  | [] => .ok []
  | c :: cs =>
    match flagOf c with
    | none => .error (.panic ("Unknown export flag: " ++ text [c]))
    | some bits => (sdBusFlags cs).map (bits ++ ·)

/-! ### The vtable -/

inductive Setter where
  | propertySetter
  | propertySetterWithSignal
  deriving DecidableEq

inductive Member where
  | method (signature result : List UInt8)
  | property (signature : List UInt8) (setter : Option Setter)
  | signal (signature : List UInt8)

structure Row where
  name : List UInt8
  member : Member
  mask : List Flag

section vtable
variable (host : Host)

def Host.isFunctionValue : Janet → Bool
  | .other id => host.isFunction id
  | _ => false

def Host.unwrap : Janet → Bool
  | .boolean b => b
  | x => host.unwrapBoolean x

def createVtableMethod (name : List UInt8) (entry : Janet) : Except Stop Row := do
  let signature ← cstr (← dictSymget entry "sig-in")
  let result ← cstr (← dictSymget entry "sig-out")
  let function ← dictSymget entry "function"
  if host.isFunctionValue function = false then
    throw (.panic ("Expected function for method: " ++ text name))
  else do
    let keys ← unwrapKeyword (← dictSymget entry "flags")
    let mask ← sdBusFlags keys
    pure ⟨name, .method signature result, mask⟩

/-- The setter that is registered. -/
def setterOf (writable : Bool) (mask : List Flag) : Option Setter :=
  if writable = true ∧ (.propertyEmitsChange ∈ mask ∨ .propertyEmitsInvalidation ∈ mask) then
    some .propertySetterWithSignal
  else if writable then some .propertySetter
  else none

def createVtableProperty (name : List UInt8) (entry : Janet) : Except Stop Row := do
  let signature ← cstr (← dictSymget entry "sig")
  let keys ← unwrapKeyword (← dictSymget entry "flags")
  let mask ← sdBusFlags keys
  let writable ← dictSymget entry "writable"
  pure ⟨name, .property signature (setterOf (host.unwrap writable) mask), mask⟩

def createVtableSignal (name : List UInt8) (entry : Janet) : Except Stop Row := do
  let signature ← cstr (← dictSymget entry "sig")
  let keys ← unwrapKeyword (← dictSymget entry "flags")
  let mask ← sdBusFlags keys
  pure ⟨name, .signal signature, mask⟩

/-- One turn of the loop of `create_vtable`. -/
def createRow (key value : Janet) : Except Stop Row := do
  let member ← cstr key
  if host.memberNameIsValid member = false then
    throw (.panic ("Invalid D-Bus member name: " ++ text member))
  else do
    let type ← dictSymget value "type"
    if symeq type "method" then createVtableMethod host member value
    else if symeq type "property" then createVtableProperty host member value
    else if symeq type "signal" then createVtableSignal member value
    else do
      let name ← cstr type
      throw (.panic ("Unknown D-Bus member type: " ++ text name))

/-- The loop of `create_vtable`, after `i` rows. -/
def createVtable (len : ℕ) : ℕ → List (Janet × Janet) → Except Stop (List Row)
  | _, [] => .ok []
  | i, kv :: kvs =>
    if len - 1 ≤ i then throw (.panic ("Too many members for D-Bus interface: " ++ toString len))
    else do
      let row ← createRow host kv.1 kv.2
      let rows ← createVtable len (i + 1) kvs
      pure (row :: rows)

/-- `export` of a path and an interface that are C strings; `add` is what
    `sd_bus_add_object_vtable` returns. -/
def cfunExport (rt : Runtime) (add : List Row → ℤ) (path interface : CString) (env : Janet) :
    Except Stop (List Row) :=
  match janetDictionaryView env with
  | none => throw (.panic ("bad slot #3, expected table|struct, got " ++ rt.format_v env))
  | some kvs =>
    if host.objectPathIsValid path.bytes = false then
      throw (.panic ("Invalid D-Bus object path: " ++ text path.bytes))
    else if host.interfaceNameIsValid interface.bytes = false then
      throw (.panic ("Invalid D-Bus interface name: " ++ text interface.bytes))
    else if kvs.length = 0 then
      throw (.panic ("No members to register for interface: " ++ text interface.bytes))
    else do
      let vtable ← createVtable host (kvs.length + 2) 0 kvs
      if add vtable < 0 then
        throw (.panic ("failed to register D-Bus interface: " ++ rt.strerror (-add vtable)))
      else pure vtable

/-! ### Dispatch -/

/-- The functions of `export.c` that sd-bus calls for a row. -/
inductive Handler where
  | methodHandler
  | propertyGetter
  | propertySetter
  deriving DecidableEq

def Row.handlers (row : Row) : List Handler :=
  match row.member with
  | .method _ _ => [.methodHandler]
  | .property _ none => [.propertyGetter]
  | .property _ (some _) => [.propertyGetter, .propertySetter]
  | .signal _ => []

/-- The field that a handler takes its function from. -/
def Handler.field : Handler → String
  | .methodHandler => "function"
  | .propertyGetter => "getter"
  | .propertySetter => "setter"

/-- The member as a handler looks it up. -/
def memberGet (members : Janet) (name : List UInt8) : Janet :=
  match janetDictionaryView members with
  | some kvs => dictionaryGet kvs name
  | none => .nil

def unwrapFunction (x : Janet) : Except Stop ℕ :=
  match x with
  | .other id => if host.isFunction id then .ok id else .error .fault
  | _ => .error .fault

/-- The function that a handler calls. -/
def handlerFunction (members : Janet) (name : List UInt8) (handler : Handler) : Except Stop ℕ := do
  let function ← dictSymget (memberGet members name) handler.field
  unwrapFunction host function

end vtable

/-! ### Dictionaries -/

/-- A dictionary of members: a struct or a table, and the object that it has under each key. Atoms are
    keys once; two keys that are no atoms may look the same. -/
structure Members where
  kvs : List (Janet × ℕ)
  isTable : Bool
  distinct : kvs.Pairwise fun a b => a.1.isAtom = true → a.1 ≠ b.1

/-- The pairs, with what the objects hold. -/
def Members.pairs (m : Members) (heap : ℕ → Janet) : List (Janet × Janet) := m.kvs.map fun kv => (kv.1, heap kv.2)

def Members.janet (m : Members) (heap : ℕ → Janet) : Janet :=
  if m.isTable then .table (m.pairs heap) else .struct (m.pairs heap)

/-- The object that a lookup of the keyword finds. -/
def Members.object (m : Members) (keyword : List UInt8) : Option ℕ :=
  (m.kvs.find? fun kv => kv.1.sameAtom (.keyword keyword)).map Prod.snd

/-- What may become of the objects: a struct does not change, and a table remains a table. -/
def Later (before after : ℕ → Janet) : Prop :=
  ∀ o, match before o with
    | .struct kvs => after o = .struct kvs
    | .table _ => ∃ kvs, after o = .table kvs
    | _ => True

/-- A request is served: the lookup finds the very entry of the row, which is a dictionary, and the
    handler finds a function in it. -/
def Serves (host : Host) (members : Members) (heap : ℕ → Janet) (entry : ℕ) (row : Row) (handler : Handler) : Prop :=
  members.object row.name = some entry ∧ (janetDictionaryView (heap entry)).isSome = true ∧
    ∃ f, handlerFunction host (members.janet heap) row.name handler = .ok f

/-- A field of an entry holds a function. -/
def HasFunction (host : Host) (entry : Janet) (field : String) : Prop :=
  ∃ v, dictSymget entry field = .ok v ∧ host.isFunctionValue v = true

section dispatch
variable {host : Host}

theorem janetDictionaryView_janet (m : Members) (heap : ℕ → Janet) :
    janetDictionaryView (m.janet heap) = some (m.pairs heap) := by
  rw [Members.janet]
  split <;> rfl

theorem sameAtom_keyword {x : Janet} {bs : List UInt8} : x.sameAtom (.keyword bs) = true ↔ x = .keyword bs := by
  cases x <;> simp [Janet.sameAtom]

/-- A lookup finds the object of its keyword. -/
theorem object_iff (m : Members) {name : List UInt8} {o : ℕ} :
    m.object name = some o ↔ (.keyword name, o) ∈ m.kvs := by
  obtain ⟨kvs, isTable, hdistinct⟩ := m
  simp only [Members.object]
  induction kvs with
  | nil => simp
  | cons kv kvs ih =>
    obtain ⟨key, value⟩ := kv
    obtain ⟨hkey, hrest⟩ := List.pairwise_cons.mp hdistinct
    by_cases hsame : key = .keyword name
    · have hfind : key.sameAtom (.keyword name) = true := sameAtom_keyword.mpr hsame
      simp only [List.find?_cons, hfind, Option.map_some, Option.some.injEq]
      subst hsame
      constructor
      · rintro rfl
        exact List.mem_cons_self
      · intro hmem
        rcases List.mem_cons.mp hmem with heq | hmem
        · exact (Prod.mk.inj heq).2.symm
        · exact (hkey _ hmem rfl rfl).elim
    · have hfind : key.sameAtom (.keyword name) = false := by
        rw [← Bool.not_eq_true, sameAtom_keyword]
        exact hsame
      simp only [List.find?_cons, hfind]
      rw [ih hrest, List.mem_cons]
      constructor
      · exact .inr
      · rintro (heq | hmem)
        · exact absurd (Prod.mk.inj heq).1.symm hsame
        · exact hmem

/-- A handler sees what its object holds. -/
theorem memberGet_object {m : Members} {heap : ℕ → Janet} {name : List UInt8} {o : ℕ}
    (h : m.object name = some o) : memberGet (m.janet heap) name = heap o := by
  rw [Members.object, Option.map_eq_some_iff] at h
  obtain ⟨kv, hfind, rfl⟩ := h
  simp only [memberGet, janetDictionaryView_janet, dictionaryGet, Members.pairs, List.find?_map, Function.comp_def,
    hfind, Option.map_some]

theorem Later.isDictionary {before after : ℕ → Janet} (h : Later before after) {o : ℕ}
    (hview : (janetDictionaryView (before o)).isSome = true) : (janetDictionaryView (after o)).isSome = true := by
  have ho := h o
  cases hbefore : before o with
  | struct kvs =>
    rw [hbefore] at ho
    simp only at ho
    rw [ho]
    rfl
  | table kvs =>
    rw [hbefore] at ho
    obtain ⟨kvs', ho⟩ := ho
    rw [ho]
    rfl
  | _ => simp [hbefore, janetDictionaryView] at hview

/-- A value that is looked up with `dict_symget` is that of a dictionary. -/
theorem dictSymget_dictionary {entry v : Janet} {key : String} (h : dictSymget entry key = .ok v) :
    (janetDictionaryView entry).isSome = true := by
  rw [dictSymget] at h
  cases hview : janetDictionaryView entry with
  | none => simp [hview] at h
  | some kvs => rfl

theorem except_bind {α β : Type} {x : Except Stop α} {f : α → Except Stop β} {b : β} :
    x >>= f = .ok b ↔ ∃ a, x = .ok a ∧ f a = .ok b := by
  cases x with
  | error e => simp [Bind.bind, Except.bind]
  | ok a => simp [Bind.bind, Except.bind]

theorem not_throw {α : Type} {e : Stop} {a : α} (h : (throw e : Except Stop α) = .ok a) : False :=
  nomatch h

theorem handlerFunction_iff {members : Janet} {name : List UInt8} {handler : Handler} :
    (∃ f, handlerFunction host members name handler = .ok f) ↔
      HasFunction host (memberGet members name) handler.field := by
  simp only [handlerFunction, except_bind, HasFunction]
  constructor
  · rintro ⟨f, v, hv, hf⟩
    refine ⟨v, hv, ?_⟩
    cases v with
    | other id =>
      rw [unwrapFunction] at hf
      split at hf
      · next h => exact h
      · simp at hf
    | _ => simp [unwrapFunction] at hf
  · rintro ⟨v, hv, hfun⟩
    cases v with
    | other id => exact ⟨id, _, hv, if_pos hfun⟩
    | _ => simp [Host.isFunctionValue] at hfun

/-! ### What was registered -/

/-- What the making of a row says of its entry. -/
theorem createRow_entry {key value : Janet} {row : Row} (h : createRow host key value = .ok row) :
    (janetDictionaryView value).isSome = true ∧
      (.methodHandler ∈ row.handlers → HasFunction host value Handler.methodHandler.field) := by
  rw [createRow, except_bind] at h
  obtain ⟨member, _, h⟩ := h
  split at h
  · exact (not_throw h).elim
  · obtain ⟨type, htype, h⟩ := except_bind.mp h
    refine ⟨dictSymget_dictionary htype, fun hmem => ?_⟩
    split at h
    · simp only [createVtableMethod, except_bind] at h
      obtain ⟨_, _, _, _, _, _, _, _, function, hfunction, h⟩ := h
      split at h
      · exact (not_throw h).elim
      · next hfun => exact ⟨function, hfunction, by simpa using hfun⟩
    · split at h
      · simp only [createVtableProperty, except_bind, pure, Except.pure, Except.ok.injEq] at h
        obtain ⟨_, _, _, _, _, _, _, _, _, _, _, _, rfl⟩ := h
        rw [Row.handlers] at hmem
        split at hmem <;> simp_all
      · split at h
        · simp only [createVtableSignal, except_bind, pure, Except.pure, Except.ok.injEq] at h
          obtain ⟨_, _, _, _, _, _, _, _, _, _, rfl⟩ := h
          simp [Row.handlers] at hmem
        · obtain ⟨_, _, h⟩ := except_bind.mp h
          exact (not_throw h).elim

/-- Each pair makes a row, in order. -/
theorem createVtable_rows {len : ℕ} : ∀ {i : ℕ} {kvs : List (Janet × Janet)} {rows : List Row},
    createVtable host len i kvs = .ok rows →
    List.Forall₂ (fun kv row => createRow host kv.1 kv.2 = .ok row) kvs rows
  | _, [], rows, h => by
    rw [createVtable] at h
    obtain rfl := Except.ok.inj h
    exact .nil
  | i, kv :: kvs, rows, h => by
    rw [createVtable] at h
    split at h
    · exact (not_throw h).elim
    · obtain ⟨row, hrow, h⟩ := except_bind.mp h
      obtain ⟨rest, hrest, h⟩ := except_bind.mp h
      obtain rfl := Except.ok.inj h
      exact .cons hrow (createVtable_rows hrest)

theorem cfunExport_rows {rt : Runtime} {add : List Row → ℤ} {path interface : CString} {env : Members}
    {heap : ℕ → Janet} {rows : List Row} (h : cfunExport host rt add path interface (env.janet heap) = .ok rows) :
    List.Forall₂ (fun kv row => createRow host kv.1 (heap kv.2) = .ok row) env.kvs rows := by
  simp only [cfunExport, janetDictionaryView_janet] at h
  split at h
  · exact (not_throw h).elim
  · split at h
    · exact (not_throw h).elim
    · split at h
      · exact (not_throw h).elim
      · obtain ⟨vtable, hvtable, h⟩ := except_bind.mp h
        split at h
        · exact (not_throw h).elim
        · obtain rfl := Except.ok.inj h
          exact List.forall₂_map_left_iff.mp (createVtable_rows hvtable)

/-- Every name is valid, and the values other than data are functions. -/
def plainHost : Host := ⟨fun _ => true, fun _ => false, fun _ => true, fun _ => true, fun _ => true⟩

/-- A dictionary with one member. -/
def oneMember (key : Janet) : Members where
  kvs := [(key, 0)]
  isTable := false
  distinct := List.pairwise_singleton _ _

/-- A method without arguments. -/
def emptyMethod : Janet :=
  .struct [(.keyword (bytesOf "type"), .symbol (bytesOf "method")),
    (.keyword (bytesOf "sig-in"), .string []), (.keyword (bytesOf "sig-out"), .string []),
    (.keyword (bytesOf "function"), .other 0), (.keyword (bytesOf "flags"), .string [])]

end dispatch

end JanetSdbus.Export
