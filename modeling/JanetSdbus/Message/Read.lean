import JanetSdbus.Message.Denote

/-! Reading a message: the other half of `message.c`.

    A message is the list of items that the calls of the encoder build. sd-bus reads it with a
    cursor: the items still ahead in the container that was entered last, and in each one around it.
    Janet tables are a parameter: where a pair goes in a table is up to Janet's hashing. -/

namespace JanetSdbus.Message
open DBus

/-! ### Messages -/

/-- A message under construction: the items of the innermost open container, and the containers
    around it with the items before. -/
structure Building where
  items : List Item
  outer : List (Container × List Char × List Item)

def Building.step (b : Building) : Call → Option Building
  | .openContainer c s => some ⟨[], (c, s, b.items) :: b.outer⟩
  | .closeContainer =>
    match b.outer with
    | (c, s, before) :: outer => some ⟨before ++ [.container c s b.items], outer⟩
    | [] => none
  | .append x => some { b with items := b.items ++ [.basic x] }
  | .appendBasic x => some { b with items := b.items ++ [.basic x] }
  | .appendArray bytes => some { b with items := b.items ++ [bytesItem bytes] }

def Building.run : Building → List Call → Option Building
  | b, [] => some b
  | b, c :: cs => (b.step c).bind fun b => b.run cs

/-- The body of the message that some calls build; a message with an open container has none. -/
def build (cs : List Call) : Option (List Item) :=
  (Building.run ⟨[], []⟩ cs).bind fun b => if b.outer = [] then some b.items else none

/-- A message and its read cursor. -/
structure Reader where
  body : List Item
  isSealed : Bool
  stack : List (List Item)

/-- `sd_bus_message_seal`: the cursor is at the start. -/
def sealMessage (body : List Item) : Reader := ⟨body, true, [body]⟩

abbrev Read := EStateM Stop Reader

/-- What `janet_table_put` does with keys that are no containers; where a table keeps a pair is not
    said. NaN is never a key. -/
structure Tables where
  put : List (Janet × Janet) → Janet → Janet → List (Janet × Janet)
  put_nan : ∀ kvs value, put kvs (.number .nan) value = kvs
  put_new : ∀ kvs key value, key.isAtom = true → key ≠ .nil → key ≠ .number .nan → value ≠ .nil →
    (∀ kv ∈ kvs, kv.1 ≠ key) → (put kvs key value).Perm ((key, value) :: kvs)
  put_old : ∀ kvs rest key old value, key.isAtom = true → key ≠ .number .nan → value ≠ .nil →
    (kvs.map Prod.fst).Nodup → kvs.Perm ((key, old) :: rest) →
    (put kvs key value).Perm ((key, value) :: rest)

/-! ### sd-bus -/

def ENXIO : ℤ := 6
def EBUSY : ℤ := 16
def EPERM : ℤ := 1

def containerChar : Container → Char
  | .array => 'a'
  | .struct => 'r'
  | .variant => 'v'
  | .dictEntry => 'e'

variable (rt : Runtime)

/-- A call that returns a negative number. -/
def readFailed {α : Type} (name : String) (errno : ℤ) : Read α :=
  throw (.panic ("failed to call " ++ name ++ ": " ++ rt.strerror errno))

def readPanic {α : Type} (msg : String) : Read α := throw (.panic msg)

/-- `MESSAGE_PEEK`: the type of the next item and its contents, or `none` at the end. -/
def messagePeek : Read (Option (Char × List Char)) := do
  let r ← get
  if r.isSealed = false then readFailed rt "sd_bus_message_peek_type" EPERM
  else match r.stack with
    | (.basic x :: _) :: _ => pure (some (x.code.char, []))
    | (.container c s _ :: _) :: _ => pure (some (containerChar c, s))
    | _ => pure none

def enterContainer (c : Container) (contents : List Char) : Read Unit := do
  let r ← get
  match r.stack with
  | (.container c' s is :: rest) :: outer =>
    if c' = c ∧ s = contents then set { r with stack := is :: rest :: outer }
    else readFailed rt "sd_bus_message_enter_container" ENXIO
  | _ => readFailed rt "sd_bus_message_enter_container" ENXIO

def exitContainer : Read Unit := do
  let r ← get
  match r.stack with
  | [] :: rest :: outer => set { r with stack := rest :: outer }
  | _ => readFailed rt "sd_bus_message_exit_container" EBUSY

def readBasic (type : Char) : Read Basic := do
  let r ← get
  match r.stack with
  | (.basic x :: rest) :: outer =>
    if x.code.char = type then do
      set { r with stack := rest :: outer }
      pure x
    else readFailed rt "sd_bus_message_read_basic" ENXIO
  | _ => readFailed rt "sd_bus_message_read_basic" ENXIO

/-- `sd_bus_message_rewind` of the whole message. -/
def rewind : Read Unit := do
  let r ← get
  if r.isSealed = false then readFailed rt "sd_bus_message_rewind" EPERM
  else set { r with stack := [r.body] }

/-! ### Janet values -/

/-- `janet_cstringv` of a signature. -/
def signatureString (s : List Char) : Janet := .string (s.map Char.toUInt8)

def intNumber (n : ℤ) : Janet := .number (.fin n)

/-- What `read_basic_type` makes of a basic value other than a descriptor. -/
def ofBasic : Basic → Janet
  | .byte x => intNumber x.toNat
  | .boolean x => .boolean x
  | .int16 x => intNumber x.toInt
  | .uint16 x => intNumber x.toNat
  | .int32 x => intNumber x.toInt
  | .uint32 x => intNumber x.toNat
  | .int64 x => .s64 x
  | .uint64 x => .u64 x
  | .double x => .number x
  | .string x => .string x.bytes
  | .objectPath x => .string x.bytes
  | .signature x => .string x.bytes
  | .fd _ => .nil

/-! ### The decoder -/

variable (tb : Tables) (dup : ℤ → Except String ℤ)

/-- `read_basic_type`; a descriptor is duplicated. -/
def readBasicType (type : Char) : Read Janet := do
  if (Code.ofChar type).isNone then readPanic ("Unsupported basic type: " ++ String.ofList [type])
  else do
    let x ← readBasic rt type
    match x with
    | .fd n =>
      match dup n with
      | .ok copy => pure (.stream false copy)
      | .error msg => readPanic msg
    | x => pure (ofBasic x)

variable (rec : Read (Option Janet))

def readVariantType (signature : List Char) : Read Janet := do
  enterContainer rt .variant signature
  match ← rec with
  | none => readPanic "Unexpected end of variant type"
  | some obj => do
    exitContainer rt
    pure (.tuple [signatureString signature, obj])

/-- `while (read_complete_type(msg, &obj) > 0)`, at most `n` times. -/
def readWhile : ℕ → Read (List Janet)
  | 0 => throw .deep
  | n + 1 => do
    match ← rec with
    | none => pure []
    | some obj => do
      let objs ← readWhile n
      pure (obj :: objs)

def readStructType (n : ℕ) (signature : List Char) : Read Janet := do
  enterContainer rt .struct signature
  let array ← readWhile rec n
  exitContainer rt
  pure (.tuple array)

def readArrayType (n : ℕ) (signature : List Char) : Read Janet := do
  enterContainer rt .array signature
  let array ← readWhile rec n
  exitContainer rt
  pure (.array array)

/-- The loop of `read_dict_type`. -/
def readEntries : ℕ → List (Janet × Janet) → Read (List (Janet × Janet))
  | 0, _ => throw .deep
  | n + 1, tbl => do
    match ← messagePeek rt with
    | none => pure tbl
    | some (_, dict_sig) => do
      enterContainer rt .dictEntry dict_sig
      let key ← readBasicType rt dup (dict_sig.headD '\x00')
      match ← rec with
      | none => readPanic "Unexpected end of dictionary type"
      | some value => do
        exitContainer rt
        readEntries n (tb.put tbl key value)

def readDictType (n : ℕ) (signature : List Char) : Read Janet := do
  enterContainer rt .array signature
  let tbl ← readEntries rt tb dup rec n []
  exitContainer rt
  pure (.table tbl)

/-- The branches of `read_complete_type`. -/
def readBranch (n : ℕ) (type : Char) (signature : List Char) : Read Janet :=
  if isBasicType type then readBasicType rt dup type
  else if type = containerChar .variant then readVariantType rt rec signature
  else if type = containerChar .struct then readStructType rt rec n signature
  else if type = 'a' ∧ signature.head? = some '{' then readDictType rt tb dup rec n signature
  else if type = 'a' then readArrayType rt rec n signature
  else readPanic ("Unsupported message type: " ++ String.ofList [type])

/-- `read_complete_type`, for items of size less than `n`; `none` at the end of a container. -/
def readCompleteType : ℕ → Read (Option Janet)
  | 0 => throw .deep
  | n + 1 => do
    match ← messagePeek rt with
    | none => pure none
    | some (type, signature) => do
      let obj ← readBranch rt tb dup (readCompleteType n) n type signature
      pure (some obj)

/-! ### `message-read` -/

mutual
def Item.size : Item → ℕ
  | .basic _ => 1
  | .container _ _ is => sizeAll is + 2
def sizeAll : List Item → ℕ
  | [] => 0
  | i :: is => Item.size i + sizeAll is
end

/-- Enough for every loop and every recursion over what is ahead. -/
def Reader.fuel (r : Reader) : ℕ := sizeAll r.body + sizeAll r.stack.flatten + 2

/-- What to read; `count` is what `janet_optinteger` returns. -/
inductive What where
  | all
  | rest
  | count (n : ℤ)
  | keyword (k : Janet)

/-- At most `k` items. -/
def readUpTo : ℕ → Read (List Janet)
  | 0 => pure []
  | k + 1 => do
    match ← rec with
    | none => pure []
    | some obj => do
      let objs ← readUpTo k
      pure (obj :: objs)

/-- `(array->count < 2) ? janet_array_pop(array) : janet_wrap_array(array)`. -/
def collapse : List Janet → Janet
  | [] => .nil
  | [x] => x
  | xs => .array xs

def cfunMessageRead (what : What) : Read Janet := do
  let n := (← get).fuel
  match what with
  | .all => do
    rewind rt
    pure (collapse (← readWhile (readCompleteType rt tb dup n) n))
  | .rest => pure (collapse (← readWhile (readCompleteType rt tb dup n) n))
  | .count k =>
    if k < 0 then readPanic "expected positive integer argument"
    else pure (collapse (← readUpTo (readCompleteType rt tb dup n) k.toNat))
  | .keyword k => readPanic ("invalid keyword argument, " ++ rt.format_v k)

end JanetSdbus.Message
