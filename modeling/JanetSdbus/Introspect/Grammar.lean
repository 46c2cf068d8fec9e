import JanetSdbus.Introspect.Dictionary
import JanetSdbus.Schemes.Peg

/-! Introspection data: `introspect.janet`.

    The grammar has a rule for each tag. A rule captures the name of its tag, its attributes and what
    its children have become, and `to-struct` makes a struct of them, so that the text is rebuilt from
    the inside out.

    What `unref` keeps apart are tagged captures, and the grammar has none. -/

namespace JanetSdbus.Introspect
open Message Schemes
open Export (bytesOf)

/-! ### Structs -/

/-- A function called with a number of arguments that it does not take. -/
def arity : Except String Janet := .error "arity mismatch"

def attributeStruct : List Janet → Except String Janet
  | [attributes] => struct (elements attributes)
  | _ => arity

def annotationStruct (_tag attributes _children : Janet) : Except String Janet :=
  if truthy (get attributes (kw "name")) && truthy (get attributes (kw "value")) then
    .ok (literal [(kw "name", get attributes (kw "name")), (kw "value", get attributes (kw "value"))])
  else .error "expected name and value attributes for annotation"

def argStruct (_tag attributes children : Janet) : Except String Janet :=
  if truthy (get attributes (kw "type")) then
    .ok (literal [(kw "name", default (get attributes (kw "name")) (str "")),
      (kw "type", get attributes (kw "type")),
      (kw "direction", default (get attributes (kw "direction")) (str "")),
      (kw "annotations", children)])
  else .error "expected type attribute for arg"

def methodStruct (_tag attributes children : Janet) : Except String Janet :=
  if truthy (get attributes (kw "name")) then
    .ok (literal [(keyword (get attributes (kw "name")),
      literal [(kw "kind", .symbol (bytesOf "method")),
        (kw "in", filter (fun x => (str "in").sameAtom (get x (kw "direction"))) children),
        (kw "out", filter (fun x => (str "out").sameAtom (get x (kw "direction"))) children),
        (kw "annotations", filter (fun x => isNil (get x (kw "direction"))) children)])])
  else .error "expected name attribute for method"

def signalStruct (_tag attributes children : Janet) : Except String Janet :=
  if truthy (get attributes (kw "name")) then
    .ok (literal [(keyword (get attributes (kw "name")),
      literal [(kw "kind", .symbol (bytesOf "signal")),
        (kw "args", filter (fun x => truthy (get x (kw "type"))) children),
        (kw "annotations", filter (fun x => isNil (get x (kw "direction"))) children)])])
  else .error "expected name attribute for signal"

def propertyStruct (_tag attributes children : Janet) : Except String Janet :=
  if truthy (get attributes (kw "name")) && truthy (get attributes (kw "type")) &&
      truthy (get attributes (kw "access")) then
    .ok (literal [(keyword (get attributes (kw "name")),
      literal [(kw "kind", .symbol (bytesOf "property")),
        (kw "type", get attributes (kw "type")),
        (kw "access", get attributes (kw "access")),
        (kw "annotations", children)])])
  else .error "expected name, type, and access attributes for property"

def member? (child : Janet) : Bool := dictionary? (firstValue child)

def interfaceStruct (_tag attributes children : Janet) : Except String Janet :=
  if truthy (get attributes (kw "name")) then
    .ok (literal [(keyword (get attributes (kw "name")),
      literal [(kw "members", merge (elements (groupBy member? children true))),
        (kw "annotations", groupBy member? children false)])])
  else .error "expected name attribute for interface"

def interface? (child : Janet) : Bool := !truthy (get child (kw "path"))

def nodeStruct (_tag attributes children : Janet) : Except String Janet :=
  .ok (literal [(kw "path", default (get attributes (kw "name")) (str "")),
    (kw "interfaces", merge (elements (groupBy interface? children true))),
    (kw "children", groupBy interface? children false)])

def dispatchFn (tag : Janet) : Janet → Janet → Janet → Except String Janet :=
  if tag.sameAtom (str "node") then nodeStruct
  else if tag.sameAtom (str "interface") then interfaceStruct
  else if tag.sameAtom (str "property") then propertyStruct
  else if tag.sameAtom (str "method") then methodStruct
  else if tag.sameAtom (str "signal") then signalStruct
  else if tag.sameAtom (str "arg") then argStruct
  else if tag.sameAtom (str "annotation") then annotationStruct
  else fun _ _ _ => .error "attempt to call nil"

def toStruct : List Janet → Except String Janet
  | [tag, attributes] => dispatchFn tag tag attributes (.array [])
  | [tag, attributes, children] => dispatchFn tag tag attributes (default children (.array []))
  | _ => arity

/-! ### Grammar -/

abbrev Rule := Peg.Pattern UInt8 Janet String

def text (s : String) : Rule := Peg.literal (bytesOf s)

/-- What `:s` matches. -/
def isSpace (c : UInt8) : Bool := c ∈ bytesOf " \t\r\n\x00\x0c\x0b"

def s : Rule := Peg.satisfy isSpace

def attr (keys : List String) : Rule :=
  if keys.isEmpty then s
  else Peg.sequence [
    Peg.replace (Peg.capture (Peg.choice (keys.map text)) .string) fun cs => .ok (keyword (cs.headD .nil)),
    text "=", text "\"",
    Peg.capture (Peg.any (Peg.ifNot (text "\"") (Peg.satisfy fun _ => true))) .string,
    text "\""]

def attributes (attrs : List String) : Rule :=
  Peg.replace (Peg.group (Peg.any (Peg.sequence [Peg.some s, attr attrs])) .array) attributeStruct

def emptyTag (tag : String) (attributes : Rule) : Rule :=
  Peg.sequence [text "<", Peg.capture (text tag) .string, attributes, text "/>", Peg.any s]

def openTag (tag : String) (attributes : Rule) : Rule :=
  Peg.sequence [text "<", Peg.capture (text tag) .string, attributes, text ">", Peg.any s]

def closeTag (tag : String) : Rule := Peg.sequence [text "</", text tag, text ">", Peg.any s]

def tag (name : String) (children : List Rule) (attrs : List String) : Rule :=
  Peg.replace
    (Peg.choice [
      emptyTag name (attributes attrs),
      Peg.sequence [
        openTag name (attributes attrs),
        Peg.group (Peg.any (Peg.choice children)) .array,
        closeTag name]])
    toStruct

def doctype : Rule := Peg.sequence [text "<!DOCTYPE", Peg.thru (text ">"), Peg.any s]

def annotation : Rule := tag "annotation" [] ["name", "value"]

def arg : Rule := tag "arg" [] ["name", "type", "direction"]

def property : Rule := tag "property" [ annotation] ["name", "type", "access"]

def signal : Rule := tag "signal" [arg, annotation] ["name"]

def method : Rule := tag "method" [arg, annotation] ["name"]

def interface : Rule := tag "interface" [method, signal, property, annotation] ["name"]

def node : Rule := Peg.fix fun node => tag "node" [node, interface] ["name"]

def grammar : Rule := Peg.sequence [Peg.opt doctype, node, Peg.atEnd]

/-- `nil` stands for a name that is not given. -/
def parseXml (input : List UInt8) (destination path : Janet) : Except String Janet :=
  match grammar.run input with
  | .raised e => .error e
  | .fail => .ok .nil
  | .ok captures _ =>
    let match_ := captures.headD .nil
    if truthy match_ then
      .ok (literal [(kw "destination", default destination (str "")), (kw "path", default path (str "/")),
        (kw "interfaces", get match_ (kw "interfaces")), (kw "children", get match_ (kw "children"))])
    else .ok .nil

end JanetSdbus.Introspect
