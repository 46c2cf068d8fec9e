import Mathlib.Data.List.Forall2
import JanetSdbus.Introspect.Grammar

/-! Markup: elements as they are written.

    An element is written with its tags, the space behind them, and its attributes in some order. What
    `to-struct` makes of it depends on its tag, the last value of each attribute, and what has been
    made of its children (`build_iff`, `get_attribute`). -/

namespace JanetSdbus.Introspect
open Message Schemes
open Export (bytesOf)

/-! ### Elements -/

inductive Tag where
  | node | interface | method | signal | property | arg | annot
  deriving DecidableEq

namespace Tag

def name : Tag → String
  | node => "node"
  | interface => "interface"
  | method => "method"
  | signal => "signal"
  | property => "property"
  | arg => "arg"
  | annot => "annotation"

/-- The elements that may stand in an element. -/
def children : Tag → List Tag
  | node => [node, interface]
  | interface => [method, signal, property, annot]
  | method | signal => [arg, annot]
  | property => [annot]
  | arg | annot => []

def attrs : Tag → List String
  | node | interface | method | signal => ["name"]
  | property => ["name", "type", "access"]
  | arg => ["name", "type", "direction"]
  | annot => ["name", "value"]

def rule : Tag → Rule
  | node => Introspect.node
  | interface => Introspect.interface
  | method => Introspect.method
  | signal => Introspect.signal
  | property => Introspect.property
  | arg => Introspect.arg
  | annot => annotation

end Tag

/-- Space, maybe none. -/
abbrev Space := { w : List UInt8 // ∀ c ∈ w, isSpace c = true }

def noSpace : Space := ⟨[], fun _ h => absurd h List.not_mem_nil⟩

def oneSpace : Space := ⟨bytesOf " ", fun _ h => by rw [List.mem_singleton.mp h]; decide⟩

def quote : UInt8 := 34

structure Attribute where
  before : Space
  key : String
  value : List UInt8
  spaced : before.1 ≠ []
  plain : quote ∉ value

/-- Behind one space, without the quotes that the value may have. -/
def written (key value : String) : Attribute where
  before := oneSpace
  key := key
  value := (bytesOf value).filter (· ≠ quote)
  spaced := by decide
  plain := by simp

inductive Markup where
  | empty (tag : Tag) (attributes : List Attribute) (after : Space)
  | paired (tag : Tag) (attributes : List Attribute) (after : Space) (children : List Markup) (last : Space)

namespace Markup

def tag : Markup → Tag
  | empty t _ _ => t
  | paired t _ _ _ _ => t

def attributes : Markup → List Attribute
  | empty _ as _ => as
  | paired _ as _ _ _ => as

def children : Markup → List Markup
  | empty _ _ _ => []
  | paired _ _ _ ms _ => ms

end Markup

/-! ### Texts -/

def Attribute.text (a : Attribute) : List UInt8 :=
  a.before.1 ++ (bytesOf a.key ++ (bytesOf "=" ++ (bytesOf "\"" ++ (a.value ++ bytesOf "\""))))

/-- A tag that begins with its name and ends with `e`. -/
def tagText (t : Tag) (as : List Attribute) (e : String) (w : Space) : List UInt8 :=
  bytesOf "<" ++ (bytesOf t.name ++ (as.flatMap Attribute.text ++ (bytesOf e ++ w.1)))

def closeText (t : Tag) (w : Space) : List UInt8 := bytesOf "</" ++ (bytesOf t.name ++ (bytesOf ">" ++ w.1))

mutual
def Markup.text : Markup → List UInt8
  | .empty t as w => tagText t as "/>" w
  | .paired t as w ms l => tagText t as ">" w ++ (textAll ms ++ closeText t l)
def textAll : List Markup → List UInt8
  | [] => []
  | m :: ms => m.text ++ textAll ms
end

/-! ### Elements where they belong -/

def AttributesBelong (t : Tag) (as : List Attribute) : Prop := ∀ a ∈ as, a.key ∈ t.attrs

mutual
def Markup.Belongs : Markup → Prop
  | .empty t as _ => AttributesBelong t as
  | .paired t as _ ms _ => AttributesBelong t as ∧ BelongIn t ms
def BelongIn (t : Tag) : List Markup → Prop
  | [] => True
  | m :: ms => m.tag ∈ t.children ∧ m.Belongs ∧ BelongIn t ms
end

theorem belongs_iff (m : Markup) : m.Belongs ↔ AttributesBelong m.tag m.attributes ∧ BelongIn m.tag m.children := by
  cases m with
  | empty t as w => exact (and_iff_left trivial).symm
  | paired t as w ms l => exact Iff.rfl

/-! ### Structs of elements -/

def Attribute.entry (a : Attribute) : Janet × Janet := (kw a.key, .string a.value)

def Markup.attributeStruct (m : Markup) : Janet := literal (m.attributes.map Attribute.entry)

mutual
/-- What `to-struct` makes of an element, after its children. -/
def Markup.build : Markup → Except String Janet
  | .empty t as _ => toStruct [str t.name, literal (as.map Attribute.entry)]
  | .paired t as _ ms _ => do
    let vs ← buildAll ms
    toStruct [str t.name, literal (as.map Attribute.entry), .array vs]
def buildAll : List Markup → Except String (List Janet)
  | [] => .ok []
  | m :: ms => do
    let v ← m.build
    let vs ← buildAll ms
    pure (v :: vs)
end

theorem build_cons {m : Markup} {ms : List Markup} {vs : List Janet} :
    buildAll (m :: ms) = .ok vs ↔ ∃ v vs', m.build = .ok v ∧ buildAll ms = .ok vs' ∧ vs = v :: vs' := by
  rw [buildAll]
  cases m.build with
  | error e => simp [bind, Except.bind]
  | ok v =>
    cases buildAll ms with
    | error e => simp [bind, Except.bind]
    | ok vs' => simp [bind, Except.bind, pure, Except.pure, eq_comm]

theorem build_paired {t : Tag} {as : List Attribute} {w l : Space} {ms : List Markup} {v : Janet} :
    (Markup.paired t as w ms l).build = .ok v ↔
      ∃ vs, buildAll ms = .ok vs ∧
        toStruct [str t.name, literal (as.map Attribute.entry), .array vs] = .ok v := by
  rw [Markup.build]
  cases buildAll ms with
  | error e => simp [bind, Except.bind]
  | ok vs => simp [bind, Except.bind]

theorem buildAll_iff {ms : List Markup} {vs : List Janet} :
    buildAll ms = .ok vs ↔ List.Forall₂ (fun m v => m.build = .ok v) ms vs := by
  induction ms generalizing vs with
  | nil =>
    rw [List.forall₂_nil_left_iff, buildAll]
    exact ⟨fun h => (Except.ok.inj h).symm, fun h => congrArg _ h.symm⟩
  | cons m ms ih =>
    rw [build_cons, List.forall₂_cons_left_iff]
    constructor
    · rintro ⟨v, vs', hv, hvs, rfl⟩
      exact ⟨v, vs', hv, ih.mp hvs, rfl⟩
    · rintro ⟨v, vs', hv, hvs, rfl⟩
      exact ⟨v, vs', hv, ih.mpr hvs, rfl⟩

def Tag.struct : Tag → Janet → Janet → Janet → Except String Janet
  | node => nodeStruct
  | interface => interfaceStruct
  | method => methodStruct
  | signal => signalStruct
  | property => propertyStruct
  | arg => argStruct
  | annot => annotationStruct

theorem dispatch_tag (t : Tag) : dispatchFn (str t.name) = t.struct := by cases t <;> rfl

/-- An element that is written with one tag has no children. -/
theorem build_iff {m : Markup} {v : Janet} :
    m.build = .ok v ↔ ∃ vs, List.Forall₂ (fun m v => m.build = .ok v) m.children vs ∧
      m.tag.struct (str m.tag.name) m.attributeStruct (.array vs) = .ok v := by
  cases m with
  | empty t as w =>
    have hbuild : (Markup.empty t as w).build = t.struct (str t.name) (literal (as.map Attribute.entry)) (.array []) := by
      rw [Markup.build, toStruct, dispatch_tag]
    rw [hbuild]
    constructor
    · exact fun h => ⟨[], .nil, h⟩
    · rintro ⟨vs, hvs, h⟩
      obtain rfl := List.forall₂_nil_left_iff.mp hvs
      exact h
  | paired t as w ms l =>
    rw [build_paired]
    constructor
    · rintro ⟨vs, hvs, h⟩
      rw [toStruct, dispatch_tag] at h
      exact ⟨vs, buildAll_iff.mp hvs, h⟩
    · rintro ⟨vs, hvs, h⟩
      refine ⟨vs, buildAll_iff.mpr hvs, ?_⟩
      rw [toStruct, dispatch_tag]
      exact h

/-! ### Attributes -/

/-- The last value of the attribute counts. -/
def Markup.value? (m : Markup) (key : String) : Option (List UInt8) :=
  (m.attributes.reverse.find? fun a => a.key = key).map Attribute.value

theorem find_entries (as : List Attribute) (key : String) :
    find (kw key) (as.map Attribute.entry) = ((as.find? fun a => a.key = key).map Attribute.value).elim .nil .string := by
  induction as with
  | nil => rfl
  | cons a as ih =>
    by_cases h : a.key = key
    · rw [List.find?_cons_of_pos (by simpa using h)]
      exact (find_cons (isKeyword_kw key) _).1 (congrArg kw h.symm)
    · rw [List.find?_cons_of_neg (by simpa using h), ← ih]
      exact (find_cons (isKeyword_kw key) _).2 fun hk => h (kw_injective hk).symm

theorem get_attribute (m : Markup) (key : String) :
    get m.attributeStruct (kw key) = (m.value? key).elim .nil .string := by
  have hkeys : ∀ k ∈ keys (m.attributes.map Attribute.entry), IsKeyword k := by
    intro k hk
    obtain ⟨_, hkv, rfl⟩ := List.mem_map.mp hk
    obtain ⟨a, _, rfl⟩ := List.mem_map.mp hkv
    exact isKeyword_kw a.key
  have hvalues : ∀ kv ∈ m.attributes.map Attribute.entry, isNil kv.2 = false := by
    intro kv hkv
    obtain ⟨a, _, rfl⟩ := List.mem_map.mp hkv
    rfl
  show find (kw key) (putAll [] (m.attributes.map Attribute.entry)) = _
  rw [find_putAll (isKeyword_kw key) hkeys hvalues, List.append_nil, ← List.map_reverse]
  exact find_entries m.attributes.reverse key

end JanetSdbus.Introspect
