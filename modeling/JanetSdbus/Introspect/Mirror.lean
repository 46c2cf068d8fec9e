import Mathlib.Data.List.Nodup
import JanetSdbus.DBus.MatchRule
import JanetSdbus.Introspect.Reading

/-! `parse-xml` inverts rendering.

    An introspection tree is what a document dir: its attributes have no order, and its tags no
    spelling. Its mirror is the struct that a reader of the tree expects, with its parts in the order
    of the document. However a tree is rendered, `parse-xml` returns its mirror (`parseXml_mirror`). -/

namespace JanetSdbus.Introspect
open Message
open Export (bytesOf)

/-! ### Trees -/

/-- What can stand between quotes. -/
abbrev Text := { v : List UInt8 // quote ∉ v }

structure Annotation where
  name : Text
  value : Text

/-- `δ` is how the direction is given. -/
structure Arg (δ : Type) where
  name : Option Text
  type : Text
  direction : δ

inductive Direction where
  | input | output
  deriving DecidableEq

/-- What stands in a method or a signal. -/
inductive Part (δ : Type) where
  | arg (a : Arg δ)
  | annot (a : Annotation)

structure Method where
  name : Text
  parts : List (Part Direction)

structure Signal where
  name : Text
  parts : List (Part (Option Text))

structure Property where
  name : Text
  type : Text
  access : Text
  annotations : List Annotation

inductive Member where
  | method (m : Method)
  | signal (s : Signal)
  | property (p : Property)

def Member.name : Member → Text
  | method m => m.name
  | signal s => s.name
  | property p => p.name

/-- What stands in an interface. -/
inductive Entry where
  | member (m : Member)
  | annot (a : Annotation)

def Entry.member? : Entry → Option Member
  | member m => some m
  | annot _ => none

def Entry.annot? : Entry → Option Annotation
  | member _ => none
  | annot a => some a

structure Interface where
  name : Text
  entries : List Entry
  valid : DBus.MatchRule.isInterfaceName (name.1.map Char.ofUInt8) = true
  distinct : ((entries.filterMap Entry.member?).map Member.name).Nodup

def Interface.members (i : Interface) : List Member := i.entries.filterMap Entry.member?

/-- What stands in a node. -/
inductive Item where
  | interface (i : Interface)
  | node (name : Option Text) (items : List Item)

def Item.interface? : Item → Option Interface
  | interface i => some i
  | node _ _ => none

mutual
/-- No node has two interfaces of one name. -/
def Item.Distinct : Item → Prop
  | .interface _ => True
  | .node _ items => ((items.filterMap Item.interface?).map Interface.name).Nodup ∧ AllDistinct items
def AllDistinct : List Item → Prop
  | [] => True
  | i :: is => i.Distinct ∧ AllDistinct is
end

/-- A node and all that is below. -/
structure Tree where
  name : Option Text
  items : List Item
  distinct : (Item.node name items).Distinct

/-! ### Mirrors -/

theorem in_plain : quote ∉ bytesOf "in" := by decide

theorem out_plain : quote ∉ bytesOf "out" := by decide

def Direction.text : Direction → Text
  | input => ⟨bytesOf "in", in_plain⟩
  | output => ⟨bytesOf "out", out_plain⟩

def textOr (o : Option Text) : Janet := .string (o.elim [] Subtype.val)

def Annotation.mirror (a : Annotation) : Janet :=
  .struct [(kw "name", .string a.name.1), (kw "value", .string a.value.1)]

section parts
variable {δ : Type} (dir : δ → Option Text)

def Arg.mirror (a : Arg δ) : Janet :=
  .struct [(kw "name", textOr a.name), (kw "type", .string a.type.1), (kw "direction", textOr (dir a.direction)),
    (kw "annotations", .array [])]

def Part.arg? : Part δ → Option (Arg δ)
  | arg a => some a
  | annot _ => none

def Part.annot? : Part δ → Option Annotation
  | arg _ => none
  | annot a => some a

end parts

/-- A method dir the direction of each argument. -/
def directed (d : Direction) : Option Text := some d.text

def Method.args (m : Method) (d : Direction) : List (Arg Direction) :=
  (m.parts.filterMap Part.arg?).filter fun a => a.direction = d

def Method.mirror (m : Method) : Janet :=
  .struct [(kw "kind", .symbol (bytesOf "method")),
    (kw "in", .array ((m.args .input).map (Arg.mirror directed))),
    (kw "out", .array ((m.args .output).map (Arg.mirror directed))),
    (kw "annotations", .array ((m.parts.filterMap Part.annot?).map Annotation.mirror))]

def Signal.mirror (s : Signal) : Janet :=
  .struct [(kw "kind", .symbol (bytesOf "signal")),
    (kw "args", .array ((s.parts.filterMap Part.arg?).map (Arg.mirror id))),
    (kw "annotations", .array ((s.parts.filterMap Part.annot?).map Annotation.mirror))]

def Property.mirror (p : Property) : Janet :=
  .struct [(kw "kind", .symbol (bytesOf "property")), (kw "type", .string p.type.1),
    (kw "access", .string p.access.1), (kw "annotations", .array (p.annotations.map Annotation.mirror))]

def Member.mirror : Member → Janet
  | method m => m.mirror
  | signal s => s.mirror
  | property p => p.mirror

/-- Under its name. -/
def Member.entry (m : Member) : Janet × Janet := (.keyword m.name.1, m.mirror)

def Interface.mirror (i : Interface) : Janet :=
  .struct ((kw "members", .table (i.members.map Member.entry)) ::
    present "annotations" ((i.entries.filterMap Entry.annot?).map Annotation.mirror))

def Interface.entry (i : Interface) : Janet × Janet := (.keyword i.name.1, i.mirror)

def interfacesMirror (items : List Item) : Janet := .table ((items.filterMap Item.interface?).map Interface.entry)

mutual
/-- The child node that an item is, if it is one. -/
def Item.child : Item → List Janet
  | .interface _ => []
  | .node name items =>
    [.struct ((kw "path", textOr name) :: (kw "interfaces", interfacesMirror items) ::
      present "children" (childrenMirror items))]
def childrenMirror : List Item → List Janet
  | [] => []
  | i :: is => i.child ++ childrenMirror is
end

/-- The path is the one that is given to `parse-xml`, not the name of the root. -/
def Tree.mirror (tree : Tree) (destination path : Janet) : Janet :=
  .struct ((kw "destination", default destination (str "")) :: (kw "path", default path (str "/")) ::
    (kw "interfaces", interfacesMirror tree.items) :: present "children" (childrenMirror tree.items))

/-! ### Renderings -/

def opt (key : String) (o : Option Text) : List (String × Text) := o.toList.map (key, ·)

/-- An element of the tag with the attributes, in any order. -/
structure Markup.Has (m : Markup) (t : Tag) (as : List (String × Text)) : Prop where
  tag : m.tag = t
  attributes : (m.attributes.map fun a => (a.key, (⟨a.value, a.plain⟩ : Text))).Perm as

def Annotation.Shown (a : Annotation) (m : Markup) : Prop :=
  m.Has .annot [("name", a.name), ("value", a.value)] ∧ m.children = []

section parts
variable {δ : Type} (dir : δ → Option Text)

def Arg.Shown (a : Arg δ) (m : Markup) : Prop :=
  m.Has .arg (opt "name" a.name ++ ("type", a.type) :: opt "direction" (dir a.direction)) ∧ m.children = []

def Part.Shown : Part δ → Markup → Prop
  | arg a, m => a.Shown dir m
  | annot a, m => a.Shown m

end parts

def Method.Shown (x : Method) (m : Markup) : Prop :=
  m.Has .method [("name", x.name)] ∧ List.Forall₂ (Part.Shown directed) x.parts m.children

def Signal.Shown (x : Signal) (m : Markup) : Prop :=
  m.Has .signal [("name", x.name)] ∧ List.Forall₂ (Part.Shown id) x.parts m.children

def Property.Shown (x : Property) (m : Markup) : Prop :=
  m.Has .property [("name", x.name), ("type", x.type), ("access", x.access)] ∧
    List.Forall₂ Annotation.Shown x.annotations m.children

def Member.Shown : Member → Markup → Prop
  | method x, m => x.Shown m
  | signal x, m => x.Shown m
  | property x, m => x.Shown m

def Entry.Shown : Entry → Markup → Prop
  | member x, m => x.Shown m
  | annot x, m => x.Shown m

def Interface.Shown (x : Interface) (m : Markup) : Prop :=
  m.Has .interface [("name", x.name)] ∧ List.Forall₂ Entry.Shown x.entries m.children

mutual
def Item.Shown : Item → Markup → Prop
  | .interface i, m => i.Shown m
  | .node name items, m => m.Has .node (opt "name" name) ∧ AllShown items m.children
def AllShown : List Item → List Markup → Prop
  | [], [] => True
  | i :: is, m :: ms => i.Shown m ∧ AllShown is ms
  | _, _ => False
end

def Tree.Shown (tree : Tree) (root : Markup) : Prop := (Item.node tree.name tree.items).Shown root

/-! ### Attributes -/

section attributes
variable {m : Markup} {t : Tag} {as : List (String × Text)}

theorem Markup.Has.keys (h : m.Has t as) : (m.attributes.map Attribute.key).Perm (as.map Prod.fst) := by
  have hperm := h.attributes.map Prod.fst
  rwa [List.map_map] at hperm

theorem Markup.Has.belong (h : m.Has t as) (hkeys : ∀ k ∈ as.map Prod.fst, k ∈ t.attrs) :
    AttributesBelong m.tag m.attributes := by
  intro a ha
  rw [h.tag]
  exact hkeys _ (h.keys.subset (List.mem_map_of_mem ha))

/-- Attributes that come once are all there. -/
theorem attributeStruct_once (h : (m.attributes.map Attribute.key).Nodup) :
    m.attributeStruct = .struct (m.attributes.map Attribute.entry) ∧ IsDict (m.attributes.map Attribute.entry) := by
  have hdict : IsDict (m.attributes.map Attribute.entry) := by
    refine isDict_kw (m.attributes.map Attribute.key) h ?_
    rw [keys, List.map_map, List.map_map]
    rfl
  refine ⟨congrArg Janet.struct (putAll_fresh ?_ hdict), hdict⟩
  intro kv hkv
  obtain ⟨a, _, rfl⟩ := List.mem_map.mp hkv
  rfl

theorem Markup.Has.get (h : m.Has t as) (hnodup : (as.map Prod.fst).Nodup) (key : String) (v : Text)
    (hmem : (key, v) ∈ as) : get m.attributeStruct (kw key) = .string v.1 := by
  obtain ⟨hstruct, hdict⟩ := attributeStruct_once (h.keys.nodup_iff.mpr hnodup)
  obtain ⟨a, ha, heq⟩ := List.mem_map.mp (h.attributes.mem_iff.mpr hmem)
  obtain ⟨rfl, rfl⟩ := (Prod.mk.injEq ..).mp heq
  rw [hstruct]
  exact find_mem hdict (List.mem_map_of_mem (f := Attribute.entry) ha)

theorem Markup.Has.get_none (h : m.Has t as) (hnodup : (as.map Prod.fst).Nodup) (key : String)
    (hmem : key ∉ as.map Prod.fst) : Introspect.get m.attributeStruct (kw key) = .nil := by
  obtain ⟨hstruct, -⟩ := attributeStruct_once (h.keys.nodup_iff.mpr hnodup)
  rw [hstruct]
  refine find_not_mem (isKeyword_kw key) fun hk => hmem ?_
  obtain ⟨_, hkv, heq⟩ := List.mem_map.mp hk
  obtain ⟨a, ha, rfl⟩ := List.mem_map.mp hkv
  exact kw_injective heq ▸ h.keys.mem_iff.mp (List.mem_map_of_mem ha)

/-- An attribute that need not be there, with the default of the source. -/
theorem Markup.Has.get_opt (h : m.Has t as) (hnodup : (as.map Prod.fst).Nodup) (key : String) (o : Option Text)
    (hopt : ∀ v, (key, v) ∈ as ↔ o = some v) :
    default (Introspect.get m.attributeStruct (kw key)) (str "") = textOr o := by
  cases o with
  | some v =>
    rw [h.get hnodup key v ((hopt v).mpr rfl)]
    rfl
  | none =>
    rw [h.get_none hnodup key]
    · rfl
    · intro hmem
      obtain ⟨kv, hkv, rfl⟩ := List.mem_map.mp hmem
      exact absurd ((hopt kv.2).mp hkv) (by simp)

end attributes

/-! ### Elements that show what they should -/

/-- A filter that keeps the `b` of which `g` knows. -/
theorem filter_known {α β γ : Type} {f : α → β} {p : β → Bool} {g : α → Option γ} {mk : γ → β}
    (h : ∀ x, (p (f x) = true ∧ ∃ c, g x = some c ∧ f x = mk c) ∨ (p (f x) = false ∧ g x = none)) (xs : List α) :
    (xs.map f).filter p = (xs.filterMap g).map mk := by
  induction xs with
  | nil => rfl
  | cons x xs ih =>
    rw [List.map_cons]
    rcases h x with ⟨hp, c, hg, hc⟩ | ⟨hp, hg⟩
    · rw [List.filter_cons_of_pos hp, List.filterMap_cons_some hg, List.map_cons, ih, hc]
    · rw [List.filter_cons_of_neg (by rw [hp]; decide), List.filterMap_cons_none hg, ih]

section shown
variable {β : Type} {Shown : β → Markup → Prop} {xs : List β} {ms : List Markup}

theorem shown_build {value : β → Janet} (h : ∀ x m, Shown x m → m.build = .ok (value x))
    (hs : List.Forall₂ Shown xs ms) : List.Forall₂ (fun m v => m.build = .ok v) ms (xs.map value) := by
  induction hs with
  | nil => exact .nil
  | cons hx _ ih => exact .cons (h _ _ hx) ih

theorem shown_belong {t : Tag} (h : ∀ x m, Shown x m → m.tag ∈ t.children ∧ m.Belongs)
    (hs : List.Forall₂ Shown xs ms) : BelongIn t ms := by
  induction hs with
  | nil => trivial
  | cons hx _ ih => exact ⟨(h _ _ hx).1, (h _ _ hx).2, ih⟩

end shown

theorem Markup.Has.build {m : Markup} {t : Tag} {as : List (String × Text)} (h : m.Has t as) (vs : List Janet)
    (hvs : List.Forall₂ (fun m v => m.build = .ok v) m.children vs) {v : Janet}
    (hv : t.struct (str t.name) m.attributeStruct (.array vs) = .ok v) : m.build = .ok v := by
  refine build_iff.mpr ⟨vs, hvs, ?_⟩
  rw [h.tag]
  exact hv

theorem Markup.Has.belongs {m : Markup} {t : Tag} {as : List (String × Text)} (h : m.Has t as)
    (hkeys : ∀ k ∈ as.map Prod.fst, k ∈ t.attrs) (hchildren : BelongIn t m.children) : m.tag = t ∧ m.Belongs := by
  refine ⟨h.tag, (belongs_iff m).mpr ⟨h.belong hkeys, ?_⟩⟩
  rw [h.tag]
  exact hchildren

/-! ### Annotations and arguments -/

theorem annotation_build (a : Annotation) (m : Markup) (h : a.Shown m) : m.build = .ok a.mirror := by
  obtain ⟨hhas, hchildren⟩ := h
  have hname := hhas.get (by simp) "name" a.name (by simp)
  have hvalue := hhas.get (by simp) "value" a.value (by simp)
  refine hhas.build [] (hchildren ▸ .nil) ?_
  show annotationStruct (str "annotation") m.attributeStruct (.array []) = _
  rw [annotationStruct, hname, hvalue]
  rfl

theorem annotation_belongs (a : Annotation) (m : Markup) (h : a.Shown m) : m.tag = .annot ∧ m.Belongs := by
  obtain ⟨hhas, hchildren⟩ := h
  exact hhas.belongs (by simp [Tag.attrs]) (hchildren ▸ trivial)

section parts
variable {δ : Type} {dir : δ → Option Text}

theorem opt_keys (key : String) (o : Option Text) : (opt key o).map Prod.fst = o.toList.map fun _ => key := by
  rw [opt, List.map_map]
  rfl

theorem mem_opt {key k : String} {o : Option Text} {v : Text} : (k, v) ∈ opt key o ↔ k = key ∧ o = some v := by
  cases o with
  | none => simp [opt]
  | some w => simp [opt, eq_comm]

theorem arg_keys (a : Arg δ) :
    ((opt "name" a.name ++ ("type", a.type) :: opt "direction" (dir a.direction)).map Prod.fst).Nodup := by
  rw [List.map_append, List.map_cons, opt_keys, opt_keys]
  cases a.name <;> cases dir a.direction <;> simp

theorem arg_build (a : Arg δ) (m : Markup) (h : a.Shown dir m) : m.build = .ok (a.mirror dir) := by
  obtain ⟨hhas, hchildren⟩ := h
  have hname := hhas.get_opt (arg_keys a) "name" a.name (fun v => by simp [mem_opt])
  have htype := hhas.get (arg_keys a) "type" a.type (by simp)
  have hdir := hhas.get_opt (arg_keys a) "direction" (dir a.direction) (fun v => by simp [mem_opt])
  refine hhas.build [] (hchildren ▸ .nil) ?_
  show argStruct (str "arg") m.attributeStruct (.array []) = _
  rw [argStruct, hname, htype, hdir]
  rfl

theorem arg_belongs (a : Arg δ) (m : Markup) (h : a.Shown dir m) : m.tag = .arg ∧ m.Belongs := by
  obtain ⟨hhas, hchildren⟩ := h
  refine hhas.belongs ?_ (hchildren ▸ trivial)
  rw [List.map_append, List.map_cons, opt_keys, opt_keys]
  cases a.name <;> cases dir a.direction <;> simp [Tag.attrs]

variable (dir) in
def Part.mirror : Part δ → Janet
  | arg a => a.mirror dir
  | annot a => a.mirror

theorem part_build (x : Part δ) (m : Markup) (h : x.Shown dir m) : m.build = .ok (x.mirror dir) := by
  cases x with
  | arg a => exact arg_build a m h
  | annot a => exact annotation_build a m h

theorem part_belongs (x : Part δ) (m : Markup) (h : x.Shown dir m) :
    (m.tag = .arg ∨ m.tag = .annot) ∧ m.Belongs := by
  cases x with
  | arg a => exact (arg_belongs a m h).imp_left .inl
  | annot a => exact (annotation_belongs a m h).imp_left .inr

theorem parts_belong {t : Tag} {xs : List (Part δ)} {ms : List Markup} (ht : t.children = [.arg, .annot])
    (h : List.Forall₂ (Part.Shown dir) xs ms) : BelongIn t ms := by
  refine shown_belong (fun x m hx => (part_belongs x m hx).imp_left fun htag => ?_) h
  rw [ht]
  simpa using htag

variable (dir) in
/-- A filter that drops annotations. -/
theorem filter_args {f : Janet → Bool} {g : Arg δ → Bool} (harg : ∀ a : Arg δ, f (a.mirror dir) = g a)
    (hann : ∀ a : Annotation, f a.mirror = false) (xs : List (Part δ)) :
    filter f (.array (xs.map (Part.mirror dir))) =
      .array (((xs.filterMap Part.arg?).filter g).map (Arg.mirror dir)) := by
  rw [List.filter_filterMap]
  refine congrArg Janet.array (filter_known (fun x => ?_) xs)
  cases x with
  | arg a =>
    cases hg : g a with
    | true => exact .inl ⟨(harg a).trans hg, a, by simp [Part.arg?, hg], rfl⟩
    | false => exact .inr ⟨(harg a).trans hg, by simp [Part.arg?, hg]⟩
  | annot a => exact .inr ⟨hann a, rfl⟩

/-- A filter that drops arguments. -/
theorem filter_annotations {f : Janet → Bool} (harg : ∀ a : Arg δ, f (a.mirror dir) = false)
    (hann : ∀ a : Annotation, f a.mirror = true) (xs : List (Part δ)) :
    filter f (.array (xs.map (Part.mirror dir))) =
      .array ((xs.filterMap Part.annot?).map Annotation.mirror) := by
  refine congrArg Janet.array (filter_known (fun x => ?_) xs)
  cases x with
  | arg a => exact .inr ⟨harg a, rfl⟩
  | annot a => exact .inl ⟨hann a, a, rfl, rfl⟩

/-- An argument has a direction, even if it does not say so. -/
theorem filter_undirected (xs : List (Part δ)) :
    filter (fun x => isNil (get x (kw "direction"))) (.array (xs.map (Part.mirror dir))) =
      .array ((xs.filterMap Part.annot?).map Annotation.mirror) :=
  filter_annotations (fun _ => rfl) (fun _ => rfl) xs

end parts

/-! ### Members -/

theorem method_build (x : Method) (m : Markup) (h : x.Shown m) :
    m.build = .ok (.struct [(Member.method x).entry]) := by
  obtain ⟨hhas, hparts⟩ := h
  have hname := hhas.get (by simp) "name" x.name (by simp)
  have hin := filter_args directed (f := fun x => (str "in").sameAtom (get x (kw "direction")))
    (g := fun a => a.direction = .input) (fun a => by obtain ⟨_, _, _ | _⟩ := a <;> rfl) (fun _ => rfl) x.parts
  have hout := filter_args directed (f := fun x => (str "out").sameAtom (get x (kw "direction")))
    (g := fun a => a.direction = .output) (fun a => by obtain ⟨_, _, _ | _⟩ := a <;> rfl) (fun _ => rfl) x.parts
  refine hhas.build _ (shown_build part_build hparts) ?_
  show methodStruct (str "method") m.attributeStruct (.array _) = _
  rw [methodStruct, hname, hin, hout, filter_undirected]
  rfl

theorem signal_build (x : Signal) (m : Markup) (h : x.Shown m) :
    m.build = .ok (.struct [(Member.signal x).entry]) := by
  obtain ⟨hhas, hparts⟩ := h
  have hname := hhas.get (by simp) "name" x.name (by simp)
  have hargs := filter_args id (f := fun x => truthy (get x (kw "type"))) (g := fun _ => true)
    (fun _ => rfl) (fun _ => rfl) x.parts
  rw [List.filter_true] at hargs
  refine hhas.build _ (shown_build part_build hparts) ?_
  show signalStruct (str "signal") m.attributeStruct (.array _) = _
  rw [signalStruct, hname, hargs, filter_undirected]
  rfl

theorem property_build (x : Property) (m : Markup) (h : x.Shown m) :
    m.build = .ok (.struct [(Member.property x).entry]) := by
  obtain ⟨hhas, hparts⟩ := h
  have hname := hhas.get (by simp) "name" x.name (by simp)
  have htype := hhas.get (by simp) "type" x.type (by simp)
  have haccess := hhas.get (by simp) "access" x.access (by simp)
  refine hhas.build _ (shown_build annotation_build hparts) ?_
  show propertyStruct (str "property") m.attributeStruct (.array _) = _
  rw [propertyStruct, hname, htype, haccess]
  rfl

theorem member_build (x : Member) (m : Markup) (h : x.Shown m) : m.build = .ok (.struct [x.entry]) := by
  cases x with
  | method x => exact method_build x m h
  | signal x => exact signal_build x m h
  | property x => exact property_build x m h

theorem member_belongs (x : Member) (m : Markup) (h : x.Shown m) : m.tag ∈ Tag.interface.children ∧ m.Belongs := by
  cases x with
  | method x =>
    obtain ⟨htag, hm⟩ := h.1.belongs (by simp [Tag.attrs]) (parts_belong rfl h.2)
    exact ⟨htag ▸ by decide, hm⟩
  | signal x =>
    obtain ⟨htag, hm⟩ := h.1.belongs (by simp [Tag.attrs]) (parts_belong rfl h.2)
    exact ⟨htag ▸ by decide, hm⟩
  | property x =>
    have hchildren := shown_belong (t := .property)
      (fun x m hx => (annotation_belongs x m hx).imp_left fun h => by rw [h]; decide) h.2
    obtain ⟨htag, hm⟩ := h.1.belongs (by simp [Tag.attrs]) hchildren
    exact ⟨htag ▸ by decide, hm⟩

/-! ### Interfaces -/

def Entry.mirror : Entry → Janet
  | member x => .struct [x.entry]
  | annot a => a.mirror

theorem entry_build (x : Entry) (m : Markup) (h : x.Shown m) : m.build = .ok x.mirror := by
  cases x with
  | member x => exact member_build x m h
  | annot a => exact annotation_build a m h

theorem entry_belongs (x : Entry) (m : Markup) (h : x.Shown m) : m.tag ∈ Tag.interface.children ∧ m.Belongs := by
  cases x with
  | member x => exact member_belongs x m h
  | annot a => exact (annotation_belongs a m h).imp_left fun h => by rw [h]; decide

/-- The first value of an annotation is a string, that of a member is a struct. -/
theorem entry_member? (x : Entry) : member? x.mirror = x.member?.isSome := by
  cases x with
  | member x => cases x <;> rfl
  | annot a => rfl

theorem filter_members (xs : List Entry) :
    (xs.map Entry.mirror).filter (fun x => member? x = true) =
      (xs.filterMap Entry.member?).map fun x => .struct [x.entry] := by
  refine filter_known (fun x => ?_) xs
  rw [entry_member?]
  cases x with
  | member x => exact .inl ⟨rfl, x, rfl, rfl⟩
  | annot a => exact .inr ⟨rfl, rfl⟩

theorem filter_others (xs : List Entry) :
    (xs.map Entry.mirror).filter (fun x => member? x = false) =
      (xs.filterMap Entry.annot?).map Annotation.mirror := by
  refine filter_known (fun x => ?_) xs
  rw [entry_member?]
  cases x with
  | member x => exact .inr ⟨rfl, rfl⟩
  | annot a => exact .inl ⟨rfl, a, rfl, rfl⟩

/-- Distinct names are distinct keys. -/
theorem isDict_names {β : Type} {name : β → Text} (mirror : β → Janet) {xs : List β} (h : (xs.map name).Nodup) :
    IsDict (xs.map fun x => (.keyword (name x).1, mirror x)) := by
  have hkeys : keys (xs.map fun x => (.keyword (name x).1, mirror x)) = (xs.map name).map fun v => .keyword v.1 := by
    rw [keys, List.map_map, List.map_map]
    rfl
  constructor
  · rw [hkeys]
    intro k hk
    obtain ⟨v, _, rfl⟩ := List.mem_map.mp hk
    exact ⟨_, rfl⟩
  · rw [hkeys]
    exact List.Nodup.map (fun _ _ heq => Subtype.ext (Janet.keyword.inj heq)) h

theorem interface_build (x : Interface) (m : Markup) (h : x.Shown m) : m.build = .ok (.struct [x.entry]) := by
  obtain ⟨hhas, hentries⟩ := h
  have hname := hhas.get (by simp) "name" x.name (by simp)
  have hmembers : merge (elements (groupBy member? (.array (x.entries.map Entry.mirror)) true)) =
      .table (x.members.map Member.entry) := by
    have hdict : IsDict (x.members.map Member.entry) := isDict_names Member.mirror x.distinct
    have hvalues : ∀ kv ∈ x.members.map Member.entry, isNil kv.2 = false := by
      intro kv hkv
      obtain ⟨y, _, rfl⟩ := List.mem_map.mp hkv
      cases y <;> rfl
    have hput := putAll_nil hvalues hdict
    have hmerge := merge_singles (x.members.map Member.entry)
    rw [List.map_map, hput] at hmerge
    rw [groupBy, elements_group, ← hmerge]
    exact congrArg merge (filter_members x.entries)
  have hannotations : groupBy member? (.array (x.entries.map Entry.mirror)) false =
      group ((x.entries.filterMap Entry.annot?).map Annotation.mirror) :=
    congrArg group (filter_others x.entries)
  refine hhas.build _ (shown_build entry_build hentries) ?_
  show interfaceStruct (str "interface") m.attributeStruct (.array _) = _
  rw [interfaceStruct, hname, hmembers, hannotations]
  have hmirror := literal_present [("members", .table (x.members.map Member.entry))] "annotations"
    (by simp) (by simp [isNil]) ((x.entries.filterMap Entry.annot?).map Annotation.mirror)
  exact congrArg (fun v => Except.ok (literal [(.keyword x.name.1, v)])) hmirror

theorem interface_belongs (x : Interface) (m : Markup) (h : x.Shown m) : m.tag = .interface ∧ m.Belongs :=
  h.1.belongs (by simp [Tag.attrs]) (shown_belong entry_belongs h.2)

/-- The name of an interface has a dot. -/
theorem name_not_path (x : Interface) : x.name.1 ≠ bytesOf "path" := by
  intro h
  have hvalid := x.valid
  rw [h] at hvalid
  exact absurd hvalid (by decide)

/-! ### Nodes -/

def Item.mirror : Item → Janet
  | interface x => .struct [x.entry]
  | node name items =>
    .struct ((kw "path", textOr name) :: (kw "interfaces", interfacesMirror items) ::
      present "children" (childrenMirror items))

/-- A node has a path, an interface has none. -/
theorem item_interface? (x : Item) : interface? x.mirror = x.interface?.isSome := by
  cases x with
  | interface x =>
    have hne : kw "path" ∉ keys [x.entry] := by
      intro h
      exact name_not_path x (Janet.keyword.inj (List.mem_singleton.mp h)).symm
    show (!truthy (find (kw "path") [x.entry])) = true
    rw [find_not_mem (isKeyword_kw _) hne]
    rfl
  | node name items => rfl

theorem filter_interfaces (xs : List Item) :
    (xs.map Item.mirror).filter (fun x => interface? x = true) =
      (xs.filterMap Item.interface?).map fun x => .struct [x.entry] := by
  refine filter_known (fun x => ?_) xs
  rw [item_interface?]
  cases x with
  | interface x => exact .inl ⟨rfl, x, rfl, rfl⟩
  | node name items => exact .inr ⟨rfl, rfl⟩

theorem filter_nodes (xs : List Item) :
    (xs.map Item.mirror).filter (fun x => interface? x = false) = childrenMirror xs := by
  induction xs with
  | nil => rfl
  | cons x xs ih =>
    rw [List.map_cons, List.filter_cons, item_interface?, ih]
    cases x <;> rfl

theorem node_mirror {name : Option Text} {items : List Item} {m : Markup}
    (hhas : m.Has .node (opt "name" name)) (hdistinct : ((items.filterMap Item.interface?).map Interface.name).Nodup)
    (hitems : List.Forall₂ (fun m v => m.build = .ok v) m.children (items.map Item.mirror)) :
    m.build = .ok (Item.node name items).mirror := by
  have hkeys : ((opt "name" name).map Prod.fst).Nodup := by
    rw [opt_keys]
    cases name <;> simp
  have hpath := hhas.get_opt hkeys "name" name (fun v => by simp [mem_opt])
  have hinterfaces : merge (elements (groupBy interface? (.array (items.map Item.mirror)) true)) =
      interfacesMirror items := by
    have hvalues : ∀ kv ∈ (items.filterMap Item.interface?).map Interface.entry, isNil kv.2 = false := by
      intro kv hkv
      obtain ⟨y, _, rfl⟩ := List.mem_map.mp hkv
      rfl
    have hput := putAll_nil hvalues (isDict_names Interface.mirror hdistinct)
    have hmerge := merge_singles ((items.filterMap Item.interface?).map Interface.entry)
    rw [List.map_map] at hmerge
    rw [groupBy, elements_group, interfacesMirror]
    exact (congrArg merge (filter_interfaces items)).trans (hmerge.trans (congrArg Janet.table hput))
  have hchildren : groupBy interface? (.array (items.map Item.mirror)) false = group (childrenMirror items) :=
    congrArg group (filter_nodes items)
  refine hhas.build _ hitems ?_
  show nodeStruct (str "node") m.attributeStruct (.array _) = _
  rw [nodeStruct, hpath, hinterfaces, hchildren]
  have hmirror := literal_present [("path", textOr name), ("interfaces", interfacesMirror items)] "children"
    (by simp) (by simp [isNil, textOr, interfacesMirror]) (childrenMirror items)
  exact congrArg Except.ok hmirror

mutual
theorem item_build : ∀ (x : Item) (m : Markup), x.Distinct → x.Shown m → m.build = .ok x.mirror ∧
    m.tag ∈ Tag.node.children ∧ m.Belongs
  | .interface x, m, _, h => by
    obtain ⟨htag, hm⟩ := interface_belongs x m h
    exact ⟨interface_build x m h, htag ▸ by decide, hm⟩
  | .node name items, m, hdistinct, h => by
    obtain ⟨hhas, hitems⟩ := h
    obtain ⟨hbuild, hchildren⟩ := items_build items m.children hdistinct.2 hitems
    have hkeys : ∀ k ∈ (opt "name" name).map Prod.fst, k ∈ Tag.node.attrs := by
      rw [opt_keys]
      cases name <;> simp [Tag.attrs]
    obtain ⟨htag, hm⟩ := hhas.belongs hkeys hchildren
    exact ⟨node_mirror hhas hdistinct.1 hbuild, by rw [htag]; decide, hm⟩
theorem items_build : ∀ (xs : List Item) (ms : List Markup), AllDistinct xs → AllShown xs ms →
    List.Forall₂ (fun m v => m.build = .ok v) ms (xs.map Item.mirror) ∧ BelongIn .node ms
  | [], [], _, _ => ⟨.nil, trivial⟩
  | x :: xs, m :: ms, hdistinct, h => by
    obtain ⟨hx, htag, hm⟩ := item_build x m hdistinct.1 h.1
    obtain ⟨hxs, hms⟩ := items_build xs ms hdistinct.2 h.2
    exact ⟨.cons hx hxs, htag, hm, hms⟩
  | [], _ :: _, _, h => h.elim
  | _ :: _, [], _, h => h.elim
end

/-- However a tree is rendered, `parse-xml` returns its mirror. -/
theorem parseXml_mirror {tree : Tree} {root : Markup} (h : tree.Shown root) (doctype : Option Doctype)
    (destination path : Janet) :
    parseXml (documentText doctype root) destination path = .ok (tree.mirror destination path) := by
  obtain ⟨hbuild, -, hm⟩ := item_build _ root tree.distinct h
  have hparse := parse_document ⟨doctype, root, h.1.tag, hm⟩ destination path
  rw [hbuild] at hparse
  refine hparse.trans (congrArg Except.ok ?_)
  exact spec_nodeOf rfl (childrenMirror tree.items) destination path

def sampleTree : Tree where
  name := none
  items := [.interface
    { name := ⟨bytesOf "a.b", by decide⟩
      entries := [.member (.method ⟨⟨bytesOf "m", by decide⟩, [.arg ⟨none, ⟨bytesOf "i", by decide⟩, .input⟩]⟩)]
      valid := by decide
      distinct := by decide }]
  distinct := ⟨by decide, trivial, trivial⟩

def sampleRoot : Markup :=
  .paired .node [] noSpace
    [.paired .interface [written "name" "a.b"] oneSpace
      [.paired .method [written "name" "m"] noSpace
        [.empty .arg [written "direction" "in", written "type" "i"] noSpace]
        noSpace]
      noSpace]
    noSpace

theorem parseXml_mirror_sample :
    parseXml (bytesOf ("<node><interface name=\"a.b\"> <method name=\"m\">" ++
      "<arg direction=\"in\" type=\"i\"/></method></interface></node>")) .nil (str "/x") =
    .ok (.struct [(kw "destination", str ""), (kw "path", str "/x"), (kw "interfaces", .table [(kw "a.b",
      .struct [(kw "members", .table [(kw "m", .struct [(kw "kind", .symbol (bytesOf "method")),
        (kw "in", .array [.struct [(kw "name", str ""), (kw "type", str "i"), (kw "direction", str "in"),
          (kw "annotations", .array [])]]),
        (kw "out", .array []), (kw "annotations", .array [])])])])])]) :=
  @parseXml_mirror sampleTree sampleRoot
    ⟨⟨rfl, .refl _⟩, ⟨⟨rfl, .refl _⟩, .cons ⟨⟨rfl, .refl _⟩, .cons ⟨⟨rfl, .swap _ _ _⟩, rfl⟩ .nil⟩ .nil⟩, trivial⟩
    none .nil (str "/x")

end JanetSdbus.Introspect
