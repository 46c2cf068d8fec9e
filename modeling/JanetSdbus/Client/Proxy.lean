import JanetSdbus.Client.Properties
import JanetSdbus.Introspect.Lossless
import JanetSdbus.Introspect.Mirror

/-! Proxies: `introspect`, `proxy-members` and `proxy` of `init.janet`.

    A proxy is a table of functions, made from what introspection says of an interface: one for each
    method and each property, under its name, beside three entries of its own. A proxy made from a
    document has exactly the functions that the document declares, and a call of one is a method call
    with the declared signature (`introspect_proxy`). -/

namespace JanetSdbus.Client
open DBus Message Export
open Introspect (kw str get pairs truthy parseXml methodTypes Tree Markup Doctype documentText)

/-! ### Introspection -/

/-- `introspect`, up to `call-async`. -/
def introspect (rt : Runtime) (next : ℕ → Option Bool) (bus : Bus) (destination path : Janet) :
    Message.Append Outgoing :=
  callMethod rt next bus destination path (janetString "org.freedesktop.DBus.Introspectable")
    (janetString "Introspect") []

/-- What `introspect` makes of the outcome of its call. -/
def Peer.introspectResult (p : Peer) (destination path : Janet) : Outcome → Outcome
  | .returned reply =>
    match janetBytesView reply with
    | some input =>
      match parseXml input destination path with
      | .ok spec => .returned spec
      | .error err => .raised (janetString err)
    | none =>
      -- of `peg/match`
      .raised (janetString ("bad slot #1, expected string|symbol|keyword|buffer, got " ++ p.rt.format_v reply))
  | .raised err => .raised err
  | .aborted => .aborted

/-- The call has no body. -/
theorem introspect_sends {rt : Runtime} {next : ℕ → Option Bool} {bus : Bus} {destination path : Janet}
    {st st' : AppendState} {msg : Outgoing} (h : introspect rt next bus destination path st = .ok msg st') :
    msg = ⟨.methodCall destination path (janetString "org.freedesktop.DBus.Introspectable")
      (janetString "Introspect"), []⟩ := by
  simp only [introspect, callMethod, post, appendRest, run_bind, run_messageNew, run_pure, run_get] at h
  obtain ⟨_, _, ⟨-, rfl⟩, _, _, ⟨-, rfl⟩, _, _, ⟨rfl, rfl⟩, rfl, -⟩ := h
  rfl

/-! ### The table -/

/-- What a key of a proxy leads to: the function of `proxy-method` or of `proxy-property`, or one of the
    entries that are there for subscriptions. -/
inductive ProxyMember where
  | method (name : Janet) (types : List (List UInt8))
  | property (name sig : Janet)
  | subscriptions
  | subscribe
  | unsubscribe

/-- `(string x)` of bytes. -/
def string (x : Janet) : Janet := .string ((janetBytesView x).getD [])

/-- The `case` form of `proxy-members`. -/
def proxyMember (name member : Janet) : Option ProxyMember :=
  if (get member (kw "kind")).sameAtom (.symbol (bytesOf "method")) then
    some (.method (string name) (methodTypes member))
  else if (get member (kw "kind")).sameAtom (.symbol (bytesOf "property")) then
    some (.property (string name) (get member (kw "type")))
  else none

/-- A key without a value is not put. -/
def proxyMembers (members : List (Janet × Janet)) : List (Janet × ProxyMember) :=
  members.filterMap fun kv => (proxyMember kv.1 kv.2).map (kv.1, ·)

/-- What every proxy has. -/
def proxyOwn : List (Janet × ProxyMember) :=
  [(kw "signal/subscriptions", .subscriptions), (kw "signal/subscribe", .subscribe),
    (kw "signal/unsubscribe", .unsubscribe)]

/-- The table, with what its functions close over. The first pair of a key counts. -/
structure Proxy where
  state : ProxyState
  kvs : List (Janet × ProxyMember)

def lookup (key : Janet) (kvs : List (Janet × ProxyMember)) : Option ProxyMember :=
  (kvs.find? fun kv => kv.1.sameAtom key).map (·.2)

/-- `(in obj key)` -/
def Proxy.member (obj : Proxy) (key : Janet) : Option ProxyMember := lookup key obj.kvs

/-- `spec` is what `introspect` returns: a dictionary, or `nil` where the text is no document. -/
def proxy (spec interface : Janet) : Except String Proxy :=
  let state : ProxyState := ⟨get spec (kw "destination"), get spec (kw "path"), string interface⟩
  if Introspect.isNil spec then
    -- `(spec :destination)` looks `nil` up in the keyword
    .error "expected integer key for keyword in range [0, 11), got nil"
  else if truthy (get (get spec (kw "interfaces")) interface) = false then
    .error ("interface " ++ text ((janetBytesView interface).getD []) ++ " not found in spec")
  else
    let members := get (get (get spec (kw "interfaces")) interface) (kw "members")
    .ok ⟨state, proxyMembers (pairs members) ++ proxyOwn⟩

/-- `(:name obj ;args)` of a method or a property, up to `call-async`; `none` of anything else, and if a
    property is given more than a value. -/
def Proxy.call (rt : Runtime) (next : ℕ → Option Bool) (bus : Bus) (obj : Proxy) (key : Janet)
    (args : List Janet) : Option (Message.Append Outgoing) :=
  match obj.member key, args with
  | some (.method name types), args => some (proxyMethod rt next bus obj.state name types args)
  | some (.property name sig), [] => some (proxyProperty rt next bus obj.state name sig .nil)
  | some (.property name sig), [value] => some (proxyProperty rt next bus obj.state name sig value)
  | _, _ => none

/-! ### What a document declares -/

/-- The types of the inputs. -/
def inputTypes (m : Introspect.Method) : List (List UInt8) := (m.args .input).map (·.type.1)

/-- Signals are not called. -/
def exposed : Introspect.Member → Option ProxyMember
  | .method m => some (.method (.string m.name.1) (inputTypes m))
  | .property p => some (.property (.string p.name.1) (.string p.type.1))
  | .signal _ => none

/-- What a proxy of the interface has under a name. -/
def declared (i : Introspect.Interface) (name : List UInt8) : Option ProxyMember :=
  ((i.members.find? fun m => m.name.1 = name).bind exposed).or (lookup (.keyword name) proxyOwn)

theorem methodTypes_mirror (m : Introspect.Method) : methodTypes m.mirror = inputTypes m := by
  rw [inputTypes, methodTypes]
  have hin : get m.mirror (kw "in") = .array ((m.args .input).map (Introspect.Arg.mirror Introspect.directed)) := rfl
  rw [hin]
  change ((m.args .input).map (Introspect.Arg.mirror Introspect.directed)).map _ = _
  rw [List.map_map]
  rfl

theorem proxyMember_mirror (m : Introspect.Member) : proxyMember (.keyword m.name.1) m.mirror = exposed m := by
  cases m with
  | method m =>
    have hmember : proxyMember (.keyword m.name.1) m.mirror =
      some (.method (.string m.name.1) (methodTypes m.mirror)) := rfl
    rw [Introspect.Member.mirror, Introspect.Member.name, hmember, methodTypes_mirror]
    rfl
  | signal s => rfl
  | property p => rfl

theorem lookup_cons (key k : List UInt8) (e : ProxyMember) (kvs : List (Janet × ProxyMember)) :
    lookup (.keyword key) ((.keyword k, e) :: kvs) = if k = key then some e else lookup (.keyword key) kvs := by
  rw [lookup, List.find?_cons]
  by_cases h : k = key
  · rw [if_pos h, sameAtom_keyword.mpr (congrArg Janet.keyword h)]
    rfl
  · have hne : (Janet.keyword k).sameAtom (.keyword key) = false := by
      rw [← Bool.not_eq_true, sameAtom_keyword]
      exact fun heq => h (Janet.keyword.inj heq)
    rw [if_neg h, hne]
    rfl

/-- What a member has put is found under its name. -/
theorem lookup_members (name : List UInt8) : ∀ (ms : List Introspect.Member), (ms.map Introspect.Member.name).Nodup →
    lookup (.keyword name) (proxyMembers (ms.map Introspect.Member.entry) ++ proxyOwn) =
      ((ms.find? fun m => m.name.1 = name).bind exposed).or (lookup (.keyword name) proxyOwn)
  | [], _ => rfl
  | m :: ms, hnodup => by
    obtain ⟨hm, hms⟩ := List.nodup_cons.mp hnodup
    have ih := lookup_members name ms hms
    have hfirst : proxyMembers ((m :: ms).map Introspect.Member.entry) =
        ((exposed m).map (Janet.keyword m.name.1, ·)).toList ++ proxyMembers (ms.map Introspect.Member.entry) := by
      rw [List.map_cons, proxyMembers, List.filterMap_cons, Introspect.Member.entry, proxyMember_mirror]
      cases exposed m <;> rfl
    rw [hfirst, List.append_assoc, List.find?_cons]
    by_cases hname : m.name.1 = name
    · -- no other member has the name
      have hrest : (ms.find? fun m => m.name.1 = name) = none := by
        refine List.find?_eq_none.mpr fun m' hm' heq => hm ?_
        have hsame : m'.name = m.name := Subtype.ext ((of_decide_eq_true heq).trans hname.symm)
        exact hsame ▸ List.mem_map_of_mem hm'
      rw [hrest] at ih
      simp only [hname, decide_true, Option.bind_some]
      cases hexp : exposed m with
      | none => exact ih
      | some e => exact (lookup_cons _ _ _ _).trans (if_pos rfl)
    · simp only [hname, decide_false]
      rw [← ih]
      cases hexp : exposed m with
      | none => rfl
      | some e => exact (lookup_cons _ _ _ _).trans (if_neg hname)

/-! ### From the document to the call -/

section document
variable {tree : Tree} {root : Markup}

/-- The dictionary of interfaces. -/
theorem find_interface {items : List Introspect.Item}
    (hnodup : ((items.filterMap Introspect.Item.interface?).map Introspect.Interface.name).Nodup)
    {i : Introspect.Interface} (hi : Introspect.Item.interface i ∈ items) :
    get (Introspect.interfacesMirror items) (.keyword i.name.1) = i.mirror := by
  have hdict := Introspect.isDict_names Introspect.Interface.mirror hnodup
  refine Introspect.find_mem hdict (List.mem_map.mpr ⟨i, ?_, rfl⟩)
  exact List.mem_filterMap.mpr ⟨_, hi, rfl⟩

theorem find_no_interface {items : List Introspect.Item} {name : List UInt8}
    (hno : ∀ i, Introspect.Item.interface i ∈ items → i.name.1 ≠ name) :
    get (Introspect.interfacesMirror items) (.keyword name) = .nil := by
  refine Introspect.find_not_mem ⟨name, rfl⟩ fun hmem => ?_
  obtain ⟨_, hkv, hkey⟩ := List.mem_map.mp hmem
  obtain ⟨i, hi, rfl⟩ := List.mem_map.mp hkv
  obtain ⟨item, hitem, hsome⟩ := List.mem_filterMap.mp hi
  cases item with
  | interface i' =>
    obtain rfl := Option.some.inj hsome
    exact hno _ hitem (Janet.keyword.inj hkey)
  | node _ _ => simp [Introspect.Item.interface?] at hsome

theorem parse_shown (hshown : tree.Shown root) (doctype : Option Doctype) (destination path : Janet) :
    parseXml (documentText doctype root) destination path = .ok (tree.mirror destination path) := by
  obtain ⟨hbuild, -, hbelongs⟩ := Introspect.item_build _ root tree.distinct hshown
  have hparse := Introspect.parse_document ⟨doctype, root, hshown.1.tag, hbelongs⟩ destination path
  rw [hbuild] at hparse
  refine hparse.trans (congrArg Except.ok ?_)
  exact Introspect.spec_nodeOf rfl (Introspect.childrenMirror tree.items) destination path

/-- A proxy made of a mirror. -/
theorem proxy_mirror (tree : Tree) (destination path : Janet) {i : Introspect.Interface}
    (hi : Introspect.Item.interface i ∈ tree.items) :
    ∃ obj, proxy (tree.mirror destination path) (.keyword i.name.1) = .ok obj ∧
      obj.state = ⟨Introspect.default destination (str ""), Introspect.default path (str "/"), .string i.name.1⟩ ∧
      ∀ name, obj.member (.keyword name) = declared i name := by
  have hinterfaces : get (tree.mirror destination path) (kw "interfaces") =
    Introspect.interfacesMirror tree.items := rfl
  have hspec : ¬ Introspect.isNil (tree.mirror destination path) = true := Bool.false_ne_true
  have hget := find_interface tree.distinct.1 hi
  refine ⟨⟨⟨get (tree.mirror destination path) (kw "destination"), get (tree.mirror destination path) (kw "path"),
    .string i.name.1⟩, proxyMembers (i.members.map Introspect.Member.entry) ++ proxyOwn⟩, ?_, rfl, fun name => ?_⟩
  · rw [proxy, if_neg hspec, hinterfaces, hget]
    rfl
  · exact lookup_members name i.members i.distinct

/-- A call of a declared method, if it is sent. -/
theorem call_declared {rt : Runtime} {next : ℕ → Option Bool} {bus : Bus} (hbus : Checks bus.sd) {obj : Proxy}
    {i : Introspect.Interface} (hobj : ∀ name, obj.member (.keyword name) = declared i name)
    {m : Introspect.Method} (hm : Introspect.Member.method m ∈ i.members) {args : List Janet}
    (hargs : (inputTypes m).flatten ≠ [] ∨ args = []) :
    ∃ send, obj.call rt next bus (.keyword m.name.1) args = some send ∧ ∀ st msg st', send st = .ok msg st' →
      msg.header = .methodCall obj.state.destination obj.state.path obj.state.interface (.string m.name.1) ∧
      Carries rt (inputTypes m).flatten args msg.calls := by
  have hfind : (i.members.find? fun m' => m'.name.1 = m.name.1) = some (.method m) := by
    have hsome : (i.members.find? fun m' => m'.name.1 = m.name.1).isSome = true :=
      List.find?_isSome.mpr ⟨_, hm, decide_eq_true rfl⟩
    obtain ⟨m', hm'⟩ := Option.isSome_iff_exists.mp hsome
    have hmem : m' ∈ i.members := List.mem_of_find?_eq_some hm'
    have hsame : m'.name.1 = m.name.1 := by simpa using List.find?_some hm'
    have hname : m'.name = (Introspect.Member.method m).name := Subtype.ext hsame
    rw [hm', List.inj_on_of_nodup_map i.distinct hmem hm hname]
  have hmember : obj.member (.keyword m.name.1) = some (.method (.string m.name.1) (inputTypes m)) := by
    rw [hobj, declared, hfind]
    rfl
  refine ⟨proxyMethod rt next bus obj.state (.string m.name.1) (inputTypes m) args, ?_, fun st msg st' hrun => ?_⟩
  · simp only [Proxy.call, hmember]
  · obtain ⟨-, rfl, happend⟩ := run_post.mp hrun
    refine ⟨rfl, ?_⟩
    split at happend
    · next hnil =>
      obtain rfl := hargs.resolve_left (not_not.mpr hnil)
      subst happend
      rw [hnil]
      exact ⟨[], [], rfl, rfl, rfl, .nil, rfl⟩
    · exact carries_append hbus happend

end document

/-- The text of a document, as a D-Bus string. -/
def sampleDocument : CString := ⟨documentText none Introspect.sampleRoot, by decide⟩

/-- What a proxy is made from comes from a document of the other end, which `introspect` asks for and
    reads from the reply. However the document is written, the proxy of an interface has the functions that the interface declares and no others; a call of a
    method that is sent goes to the object and carries the arguments under the declared types. For an
    interface that the document does not have there is no proxy. -/
theorem introspect_proxy (client : Peer) (tree : Tree) (root : Markup) (hshown : tree.Shown root)
    (doctype : Option Doctype) (doc : CString) (hdoc : doc.bytes = documentText doctype root)
    (destination path : Janet) :
    (∀ (next : ℕ → Option Bool) (bus : Bus) (st st' : AppendState) (msg : Outgoing),
      introspect client.rt next bus destination path st = .ok msg st' →
        msg = ⟨.methodCall destination path (janetString "org.freedesktop.DBus.Introspectable")
          (janetString "Introspect"), []⟩) ∧
    ∃ spec, client.introspectResult destination path (client.readAll (sealMessage [.basic (.string doc)])) =
        .returned spec ∧
      (∀ i, .interface i ∈ tree.items → ∃ obj, proxy spec (.keyword i.name.1) = .ok obj ∧
        (∀ name, obj.member (.keyword name) = declared i name) ∧
        ∀ m, .method m ∈ i.members → ∀ (next : ℕ → Option Bool) (bus : Bus), Checks bus.sd → ∀ args,
          ((inputTypes m).flatten ≠ [] ∨ args = []) →
          ∃ send, obj.call client.rt next bus (.keyword m.name.1) args = some send ∧
            ∀ st msg st', send st = .ok msg st' →
              msg.header = .methodCall (Introspect.default destination (str ""))
                (Introspect.default path (str "/")) (.string i.name.1) (.string m.name.1) ∧
              Carries client.rt (inputTypes m).flatten args msg.calls) ∧
      ∀ name, (∀ i, .interface i ∈ tree.items → i.name.1 ≠ name) →
        proxy spec (.keyword name) = .error ("interface " ++ text name ++ " not found in spec") := by
  have hread : client.readAll (sealMessage [.basic (.string doc)]) = .returned (.string doc.bytes) :=
    readAll_items client (.cons _ _ _ _ (.basic _) .nil) rfl
  refine ⟨fun _ _ _ _ _ => introspect_sends, tree.mirror destination path, ?_, fun i hi => ?_, fun name hno => ?_⟩
  · simp only [hread, Peer.introspectResult, janetBytesView, hdoc, parse_shown hshown]
  · obtain ⟨obj, hobj, hstate, hmember⟩ := proxy_mirror tree destination path hi
    refine ⟨obj, hobj, hmember, fun m hm next bus hbus args hargs => ?_⟩
    obtain ⟨send, hcall, hsent⟩ :
        ∃ send, obj.call client.rt next bus (.keyword m.name.1) args = some send ∧ ∀ st msg st', send st = .ok msg st' →
          msg.header = .methodCall obj.state.destination obj.state.path obj.state.interface (.string m.name.1) ∧
            Carries client.rt (inputTypes m).flatten args msg.calls := call_declared hbus hmember hm hargs
    rw [hstate] at hsent
    exact ⟨send, hcall, hsent⟩
  · have hinterfaces : get (tree.mirror destination path) (kw "interfaces") =
      Introspect.interfacesMirror tree.items := rfl
    have hspec : ¬ Introspect.isNil (tree.mirror destination path) = true := Bool.false_ne_true
    rw [proxy, if_neg hspec, hinterfaces, find_no_interface hno]
    rfl

/-- A document with one method, and its proxy. -/
theorem introspect_proxy_sample : ∃ spec obj,
    silentPeer.introspectResult .nil (str "/x") (silentPeer.readAll (sealMessage [.basic (.string sampleDocument)])) =
      .returned spec ∧
    proxy spec (.keyword (bytesOf "a.b")) = .ok obj ∧
    obj.member (.keyword (bytesOf "m")) = some (.method (str "m") [bytesOf "i"]) ∧
    proxy spec (.keyword (bytesOf "c.d")) = .error "interface c.d not found in spec" := by
  obtain ⟨-, spec, hspec, hproxy, hno⟩ := introspect_proxy silentPeer Introspect.sampleTree Introspect.sampleRoot
    ⟨⟨rfl, .refl _⟩, ⟨⟨rfl, .refl _⟩, .cons ⟨⟨rfl, .refl _⟩, .cons ⟨⟨rfl, .swap _ _ _⟩, rfl⟩ .nil⟩ .nil⟩, trivial⟩
    none sampleDocument rfl .nil (str "/x")
  obtain ⟨obj, hobj, hmember, -⟩ := hproxy _ List.mem_cons_self
  refine ⟨spec, obj, hspec, hobj, (hmember _).trans rfl, (hno _ ?_).trans rfl⟩
  intro i hi
  rcases List.mem_cons.mp hi with heq | hi
  · obtain rfl := Introspect.Item.interface.inj heq
    decide
  · exact absurd hi List.not_mem_nil

end JanetSdbus.Client
