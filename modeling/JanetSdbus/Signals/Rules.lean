import JanetSdbus.DBus.MatchRule

/-! The match rules of `subscribe-signal` and `subscribe-properties-changed`.

    A rule admits whatever it does not mention. The first function leaves out the message type, the
    second never looks at the interface it is given, and so each rule admits more than was asked for:
    `rules_over_match` says exactly what. -/

namespace JanetSdbus.Signals
open DBus.MatchRule

/-- `symbolic-kvs`: `key='value'` for the values that are not nil. -/
def symbolicKvs (args : List (List Char × Option (List Char))) : List (List Char) :=
  args.filterMap fun arg => arg.2.map fun value => arg.1 ++ "='".toList ++ value ++ "'".toList

/-- `(string/join parts ",")`. -/
def joinCommas (parts : List (List Char)) : List Char := ",".toList.intercalate parts

/-- The rule that `subscribe-signal` passes to `match-async`. -/
def subscribeSignalRules (member : List Char) (sender path interface : Option (List Char)) : List Char :=
  joinCommas (symbolicKvs [("member".toList, some member), ("sender".toList, sender), ("path".toList, path),
    ("interface".toList, interface)])

/-- The rule that `subscribe-properties-changed` passes to `match-async`. -/
def subscribePropertiesChangedRules (_interface : List Char) (sender path : Option (List Char)) : List Char :=
  let base := ["type='signal'".toList, "member='PropertiesChanged'".toList,
    "interface='org.freedesktop.DBus.Properties'".toList]
  joinCommas (symbolicKvs [("sender".toList, sender), ("path".toList, path)] ++ base)

/-! ### What the caller asks for -/

/-- The arguments of `subscribe-signal`. -/
structure SignalFilter where
  member : MemberName
  sender : Option BusName
  path : Option ObjectPath
  interface : Option InterfaceName

def SignalFilter.rules (f : SignalFilter) : List Char :=
  subscribeSignalRules f.member (f.sender.map (·.val)) (f.path.map (·.val)) (f.interface.map (·.val))

/-- The message carries what is given. -/
structure SignalFilter.Carries (f : SignalFilter) (m : Envelope) : Prop where
  member : m.member = some f.member.val
  sender : ∀ s ∈ f.sender, m.sentBy s.val
  path : ∀ p ∈ f.path, m.path = some p.val
  interface : ∀ i ∈ f.interface, m.interface = some i.val

/-- The signals the subscription is for. -/
def SignalFilter.Wants (f : SignalFilter) (m : Envelope) : Prop := m.type = .signal ∧ f.Carries m

/-- The arguments of `subscribe-properties-changed`. -/
structure PropertiesFilter where
  interface : InterfaceName
  sender : Option BusName
  path : Option ObjectPath

def PropertiesFilter.rules (f : PropertiesFilter) : List Char :=
  subscribePropertiesChangedRules f.interface (f.sender.map (·.val)) (f.path.map (·.val))

/-- The message is a PropertiesChanged signal and carries the sender and the path, if given. -/
structure PropertiesFilter.Carries (f : PropertiesFilter) (m : Envelope) : Prop where
  type : m.type = .signal
  member : m.member = some "PropertiesChanged".toList
  interface : m.interface = some "org.freedesktop.DBus.Properties".toList
  sender : ∀ s ∈ f.sender, m.sentBy s.val
  path : ∀ p ∈ f.path, m.path = some p.val

/-- ... and it is about the interface, which is its first argument. -/
def PropertiesFilter.Wants (f : PropertiesFilter) (m : Envelope) : Prop :=
  f.Carries m ∧ m.args.head? = some (.string f.interface.val)

/-! ### The rule that was built -/

/-- The pairs whose value is given. -/
def given (args : List (Key × Option (List Char))) : Rule :=
  args.filterMap fun arg => arg.2.map fun value => (arg.1, value)

variable {args : List (Key × Option (List Char))} {m : Envelope}

theorem mem_given {p : Key × List Char} : p ∈ given args ↔ (p.1, some p.2) ∈ args := by
  obtain ⟨k, v⟩ := p
  simp only [given, List.mem_filterMap, Option.map_eq_some_iff, Prod.mk.injEq]
  constructor
  · rintro ⟨⟨k', o⟩, hmem, w, rfl, rfl, rfl⟩
    exact hmem
  · intro hmem
    exact ⟨(k, some v), hmem, v, rfl, rfl, rfl⟩

theorem format_pair (k : Key) (v : List Char) :
    k.text ++ "='".toList ++ v ++ "'".toList = writePair (k, v) := by
  have hopen : "='".toList = ['=', apostrophe] := by decide
  have hclose : "'".toList = [apostrophe] := by decide
  rw [writePair, hopen, hclose]
  simp

theorem symbolicKvs_given (args : List (Key × Option (List Char))) :
    symbolicKvs (args.map fun arg => (arg.1.text, arg.2)) = (given args).map writePair := by
  induction args with
  | nil => rfl
  | cons arg args ih =>
    obtain ⟨k, o⟩ := arg
    cases o with
    | none => exact ih
    | some v => exact congrArg₂ List.cons (format_pair k v) ih

theorem symbolicKvs_append (args args' : List (List Char × Option (List Char))) :
    symbolicKvs (args ++ args') = symbolicKvs args ++ symbolicKvs args' := List.filterMap_append

theorem given_keys (args : List (Key × Option (List Char))) :
    ((given args).map Prod.fst).Sublist (args.map Prod.fst) := by
  induction args with
  | nil => exact .slnil
  | cons arg args ih =>
    obtain ⟨k, o⟩ := arg
    cases o with
    | none => exact ih.cons k
    | some v => exact ih.cons_cons k

/-- The values given are ones that their keys may have, and no key is named twice. -/
structure Allowed (args : List (Key × Option (List Char))) : Prop where
  keys : (args.map Prod.fst).Nodup
  names : ∀ k ∈ args.map Prod.fst, k.isArg = false
  accepts : ∀ k v, (k, some v) ∈ args → k.accepts v = true

/-- A message satisfies the rule if it has every value that was given. -/
theorem Allowed.satisfies (h : Allowed args) (m : Envelope) :
    Satisfies (joinCommas (symbolicKvs (args.map fun arg => (arg.1.text, arg.2)))) m ↔
      ∀ k v, (k, some v) ∈ args → k.admits m v = true := by
  have hvalid : (given args).valid = true := by
    rw [Rule.valid, Bool.and_eq_true, decide_eq_true_eq, List.all_eq_true]
    exact ⟨h.keys.sublist (given_keys args), fun p hp => h.accepts p.1 p.2 (mem_given.mp hp)⟩
  have hplain : Plain (given args) := fun p hp => by
    have hmem := mem_given.mp hp
    exact Key.accepts_plain (h.accepts p.1 p.2 hmem) (h.names p.1 (List.mem_map.mpr ⟨_, hmem, rfl⟩))
  have hwrite : joinCommas ((given args).map writePair) = writeRule (given args) := rfl
  rw [symbolicKvs_given, hwrite, satisfies_write hplain hvalid, Rule.admits, List.all_eq_true]
  constructor
  · intro hall k v hmem
    exact hall (k, v) (mem_given.mpr hmem)
  · intro hall p hp
    exact hall p.1 p.2 (mem_given.mp hp)

/-! ### What the rules admit -/

theorem forall_cons {k : Key} {o : Option (List Char)} {q : Key → List Char → Prop} :
    (∀ k' v, (k', some v) ∈ (k, o) :: args → q k' v) ↔
      (∀ v ∈ o, q k v) ∧ ∀ k' v, (k', some v) ∈ args → q k' v := by
  constructor
  · intro h
    refine ⟨fun v hv => h k v ?_, fun k' v hmem => h k' v (List.mem_cons_of_mem _ hmem)⟩
    rw [Option.mem_def.mp hv]
    exact List.mem_cons_self
  · rintro ⟨hk, hargs⟩ k' v hmem
    rcases List.mem_cons.mp hmem with heq | hmem
    · obtain ⟨rfl, rfl⟩ := Prod.mk.inj heq
      exact hk v rfl
    · exact hargs k' v hmem

theorem forall_nil {q : Key → List Char → Prop} :
    (∀ k v, (k, some v) ∈ ([] : List (Key × Option (List Char))) → q k v) ↔ True :=
  iff_true_intro fun _ _ hmem => absurd hmem List.not_mem_nil

theorem forall_val {name : List Char → Prop} {o : Option { s // name s }} {q : List Char → Prop} :
    (∀ v ∈ o.map (·.val), q v) ↔ ∀ x ∈ o, q x.val := by
  cases o with
  | none => simp
  | some x => simp

theorem forall_some {v : List Char} {q : List Char → Prop} : (∀ v' ∈ some v, q v') ↔ q v := by simp

namespace SignalFilter

def pairs (f : SignalFilter) : List (Key × Option (List Char)) :=
  [(.member, some f.member.val), (.sender, f.sender.map (·.val)), (.path, f.path.map (·.val)),
    (.interface, f.interface.map (·.val))]

theorem rules_eq (f : SignalFilter) :
    f.rules = joinCommas (symbolicKvs (f.pairs.map fun arg => (arg.1.text, arg.2))) := rfl

theorem allowed (f : SignalFilter) : Allowed f.pairs where
  keys := by
    have hkeys : f.pairs.map Prod.fst = [.member, .sender, .path, .interface] := rfl
    rw [hkeys]
    decide
  names := by
    have hkeys : f.pairs.map Prod.fst = [.member, .sender, .path, .interface] := rfl
    rw [hkeys]
    decide
  accepts := by
    simp only [pairs, forall_cons, forall_nil, forall_val, forall_some, and_true]
    exact ⟨f.member.2, fun s _ => s.2, fun p _ => p.2, fun i _ => i.2⟩

/-- The rule of `subscribe-signal` admits the messages that carry what was given, of any type. -/
theorem satisfies_iff (f : SignalFilter) (m : Envelope) : Satisfies f.rules m ↔ f.Carries m := by
  rw [rules_eq, f.allowed.satisfies]
  simp only [pairs, forall_cons, forall_nil, forall_val, forall_some, and_true, Key.admits,
    decide_eq_true_eq]
  exact ⟨fun ⟨hm, hs, hp, hi⟩ => ⟨hm, hs, hp, hi⟩, fun h => ⟨h.member, h.sender, h.path, h.interface⟩⟩

/-- A method call that carries what was given. -/
def call (f : SignalFilter) : Envelope where
  type := .methodCall
  sender := f.sender.map (·.val)
  owned := []
  destination := none
  path := f.path.map (·.val)
  interface := f.interface.map (·.val)
  member := some f.member.val
  args := []

theorem carries_call (f : SignalFilter) : f.Carries f.call where
  member := rfl
  sender s hs := .inl (by rw [call, Option.mem_def.mp hs]; rfl)
  path p hp := by rw [call, Option.mem_def.mp hp]; rfl
  interface i hi := by rw [call, Option.mem_def.mp hi]; rfl

end SignalFilter

namespace PropertiesFilter

def pairs (f : PropertiesFilter) : List (Key × Option (List Char)) :=
  [(.sender, f.sender.map (·.val)), (.path, f.path.map (·.val)), (.type, some "signal".toList),
    (.member, some "PropertiesChanged".toList), (.interface, some "org.freedesktop.DBus.Properties".toList)]

theorem rules_eq (f : PropertiesFilter) :
    f.rules = joinCommas (symbolicKvs (f.pairs.map fun arg => (arg.1.text, arg.2))) := by
  have hbase : symbolicKvs [("type".toList, some "signal".toList),
      ("member".toList, some "PropertiesChanged".toList),
      ("interface".toList, some "org.freedesktop.DBus.Properties".toList)] =
      ["type='signal'".toList, "member='PropertiesChanged'".toList,
        "interface='org.freedesktop.DBus.Properties'".toList] := by decide
  have happend := symbolicKvs_append [("sender".toList, f.sender.map (·.val)), ("path".toList, f.path.map (·.val))]
    [("type".toList, some "signal".toList), ("member".toList, some "PropertiesChanged".toList),
      ("interface".toList, some "org.freedesktop.DBus.Properties".toList)]
  rw [hbase] at happend
  exact congrArg joinCommas happend.symm

theorem allowed (f : PropertiesFilter) : Allowed f.pairs where
  keys := by
    have hkeys : f.pairs.map Prod.fst = [.sender, .path, .type, .member, .interface] := rfl
    rw [hkeys]
    decide
  names := by
    have hkeys : f.pairs.map Prod.fst = [.sender, .path, .type, .member, .interface] := rfl
    rw [hkeys]
    decide
  accepts := by
    simp only [pairs, forall_cons, forall_nil, forall_val, forall_some, and_true]
    exact ⟨fun s _ => s.2, fun p _ => p.2, by decide, by decide, by decide⟩

/-- The rule of `subscribe-properties-changed` admits the changes of every interface. -/
theorem satisfies_iff (f : PropertiesFilter) (m : Envelope) : Satisfies f.rules m ↔ f.Carries m := by
  rw [rules_eq, f.allowed.satisfies]
  simp only [pairs, forall_cons, forall_nil, forall_val, forall_some, and_true, Key.admits,
    decide_eq_true_eq]
  constructor
  · rintro ⟨hs, hp, ht, hm, hi⟩
    exact ⟨MessageType.text_inj (ht.trans rfl), hm, hi, hs, hp⟩
  · intro h
    exact ⟨h.sender, h.path, congrArg MessageType.text h.type, h.member, h.interface⟩

/-- A change of no interface. -/
def change (f : PropertiesFilter) : Envelope where
  type := .signal
  sender := f.sender.map (·.val)
  owned := []
  destination := none
  path := f.path.map (·.val)
  interface := some "org.freedesktop.DBus.Properties".toList
  member := some "PropertiesChanged".toList
  args := []

theorem carries_change (f : PropertiesFilter) : f.Carries f.change where
  type := rfl
  member := rfl
  interface := rfl
  sender s hs := .inl (by rw [change, Option.mem_def.mp hs]; rfl)
  path p hp := by rw [change, Option.mem_def.mp hp]; rfl

end PropertiesFilter

/-- A message is taken rightly, by the rule of `subscribe-signal`, if and only if it is a signal or
    does not carry what was given; by the rule of `subscribe-properties-changed`, if and only if its
    first argument is the interface or it does not carry what was given. No rule takes all messages
    rightly. -/
theorem rules_over_match (f : SignalFilter) (g : PropertiesFilter) :
    ((∀ m, (Satisfies f.rules m ↔ f.Wants m) ↔ (m.type = .signal ∨ ¬ f.Carries m)) ∧
      ¬ ∀ m, Satisfies f.rules m ↔ f.Wants m) ∧
    (∀ m, (Satisfies g.rules m ↔ g.Wants m) ↔
        (m.args.head? = some (.string g.interface.val) ∨ ¬ g.Carries m)) ∧
      ¬ ∀ m, Satisfies g.rules m ↔ g.Wants m := by
  refine ⟨⟨fun m => ?_, fun hall => ?_⟩, fun m => ?_, fun hall => ?_⟩
  · rw [f.satisfies_iff, SignalFilter.Wants]
    tauto
  · have hwants := (hall f.call).mp ((f.satisfies_iff _).mpr f.carries_call)
    exact absurd hwants.1 (by simp [SignalFilter.call])
  · rw [g.satisfies_iff, PropertiesFilter.Wants]
    tauto
  · have hwants := (hall g.change).mp ((g.satisfies_iff _).mpr g.carries_change)
    exact absurd hwants.2 (by simp [PropertiesFilter.change])

/-- A subscription to the signal `Add`. -/
def addFilter : SignalFilter := ⟨⟨"Add".toList, by decide⟩, none, none, none⟩

/-- A call of the method `Add`. -/
def addCall : Envelope :=
  ⟨.methodCall, some ":1.7".toList, [], some ":1.8".toList, some "/org".toList, none, some "Add".toList, []⟩

/-- A subscription to the changes of `org.a`. -/
def changesFilter : PropertiesFilter := ⟨⟨"org.a".toList, by decide⟩, none, none⟩

/-- A change of `org.b`. -/
def otherChange : Envelope :=
  ⟨.signal, some ":1.7".toList, [], none, some "/org".toList, some "org.freedesktop.DBus.Properties".toList,
    some "PropertiesChanged".toList, [.string "org.b".toList]⟩

/-- The call satisfies the rule of the first subscription, the change that of the second. -/
theorem addCall_admitted : addFilter.rules = "member='Add'".toList ∧
    (Satisfies addFilter.rules addCall ∧ ¬ addFilter.Wants addCall) ∧
    Satisfies changesFilter.rules otherChange ∧ ¬ changesFilter.Wants otherChange := by
  refine ⟨by decide, ⟨⟨[(.member, "Add".toList)], by decide +kernel, by decide⟩, fun h => ?_⟩,
    ⟨[(.type, "signal".toList), (.member, "PropertiesChanged".toList),
      (.interface, "org.freedesktop.DBus.Properties".toList)], by decide +kernel, by decide⟩, fun h => ?_⟩
  · exact absurd h.1 (by decide)
  · exact absurd h.2 (by decide)

end JanetSdbus.Signals
