import JanetSdbus.Message.Append

/-! What a Janet value means as a value of a D-Bus type.

    `denote t v` is the item that `v` stands for as a `t`, and `none` unless `v` conforms to `t`. It
    knows nothing of cursors, buffers and brackets. `calls` is the reference encoding of an item:
    the sd-bus calls that build it. -/

namespace JanetSdbus.Message
open DBus

/-- The bytes of a Janet string, read as a signature. -/
def chars (bs : List UInt8) : List Char := bs.map Char.ofUInt8

def isByte : Ty → Bool
  | .basic .byte => true
  | _ => false

variable (rt : Runtime)

mutual
/-- A basic type takes what its conversion accepts; an array of bytes takes bytes, any other array
    an array or a tuple; a struct one value for each field; a dictionary conforming keys and values;
    a variant a tuple of a string that holds one complete type and a value of it. -/
def denote : Ty → Janet → Option Item
  | .basic c, v => (convert rt c v).map .basic
  | .variant, .tuple [.string bs, x] =>
    (parse (chars bs)).bind fun t => (denote t x).map fun i => .container .variant (chars bs) [i]
  | .array t, .array xs =>
    if isByte t then none else (denoteEach t xs).map (.container .array t.render)
  | .array t, .tuple xs =>
    if isByte t then none else (denoteEach t xs).map (.container .array t.render)
  | .array t, v => if isByte t then (janetBytesView v).map bytesItem else none
  | .dict k v, .struct kvs => (denoteEntries k v kvs).map (.container .array (renderEntry k v))
  | .dict k v, .table kvs => (denoteEntries k v kvs).map (.container .array (renderEntry k v))
  | .struct t ts, .array xs =>
    (denoteFields (t :: ts) xs).map (.container .struct (renderAll (t :: ts)))
  | .struct t ts, .tuple xs =>
    (denoteFields (t :: ts) xs).map (.container .struct (renderAll (t :: ts)))
  | _, _ => none
def denoteEach : Ty → List Janet → Option (List Item)
  | _, [] => some []
  | t, x :: xs => (denote t x).bind fun i => (denoteEach t xs).map fun is => i :: is
/-- One value for each type. -/
def denoteFields : List Ty → List Janet → Option (List Item)
  | [], [] => some []
  | t :: ts, x :: xs => (denote t x).bind fun i => (denoteFields ts xs).map fun is => i :: is
  | _, _ => none
def denoteEntries : Code → Ty → List (Janet × Janet) → Option (List Item)
  | _, _, [] => some []
  | k, t, (key, v) :: kvs =>
    (convert rt k key).bind fun x => (denote t v).bind fun i =>
      (denoteEntries k t kvs).map fun es => entryItem k t x i :: es
end

section eqs
variable {rt : Runtime} {t : Ty} {v : Janet}

theorem denote_bytes (ht : isByte t = true) :
    denote rt (.array t) v = (janetBytesView v).map bytesItem := by
  cases v <;> simp [denote, ht, janetBytesView]

theorem denote_array (ht : isByte t = false) : denote rt (.array t) v =
    (janetIndexedView v).bind fun xs => (denoteEach rt t xs).map (.container .array t.render) := by
  cases v <;> simp [denote, ht, janetIndexedView]

theorem denote_dict {k : Code} : denote rt (.dict k t) v = (janetDictionaryView v).bind fun kvs =>
    (denoteEntries rt k t kvs).map (.container .array (renderEntry k t)) := by
  cases v <;> simp [denote, janetDictionaryView]

theorem denote_struct {ts : List Ty} : denote rt (.struct t ts) v =
    (janetIndexedView v).bind fun xs =>
      (denoteFields rt (t :: ts) xs).map (.container .struct (renderAll (t :: ts))) := by
  cases v <;> simp [denote, janetIndexedView]

theorem denote_variant_eq {bs : List UInt8} {x : Janet} :
    denote rt .variant (.tuple [.string bs, x]) = (parse (chars bs)).bind fun t =>
      (denote rt t x).map fun i => .container .variant (chars bs) [i] := by
  rw [denote]

/-- A variant holds a string and a value of the type it spells. -/
theorem denote_variant {i : Item} (h : denote rt .variant v = some i) : ∃ bs x t j,
    v = .tuple [.string bs, x] ∧ chars bs = t.render ∧ denote rt t x = some j ∧
      i = .container .variant t.render [j] := by
  rw [denote.eq_def] at h
  split at h
  case h_2 bs x _ =>
    obtain ⟨t, ht, h⟩ := Option.bind_eq_some_iff.mp h
    obtain ⟨j, hj, rfl⟩ := Option.map_eq_some_iff.mp h
    have hren := parse_sound ht
    exact ⟨bs, x, t, j, rfl, hren, hj, by rw [hren]⟩
  all_goals contradiction

end eqs

/-- Strings are appended by a call of their own. -/
def basicCall (x : Basic) : Call :=
  match x with
  | .string _ | .objectPath _ | .signature _ => .appendBasic x
  | _ => .append x

def byteOf : Item → Option UInt8
  | .basic (.byte b) => some b
  | _ => none

mutual
/-- The calls that build an item; an array of bytes is appended whole. -/
def calls : Item → List Call
  | .basic x => [basicCall x]
  | .container c s is =>
    if c = .array ∧ s = [Code.byte.char] then [.appendArray (is.filterMap byteOf)]
    else .openContainer c s :: (callsAll is ++ [.closeContainer])
def callsAll : List Item → List Call
  | [] => []
  | i :: is => calls i ++ callsAll is
end

end JanetSdbus.Message
