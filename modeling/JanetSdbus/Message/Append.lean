import JanetSdbus.Message.Janet
import JanetSdbus.Schemes.CMemory

/-! Appending to a message: `unwrap.c` and the writing half of `message.c`.

    A function runs on the memory that holds signatures and their copies, on the error context, and
    on the list of sd-bus calls made so far; it returns, raises a Janet error, or stops at a bad
    memory access (`fault`). sd-bus is a parameter: what it answers to a call after the calls before
    it. The four container branches call back `append_complete_type`, their argument `rec`; the knot
    is tied at a depth that the values never reach. -/

namespace JanetSdbus.Message
open DBus Schemes.CMemory

/-- The calls that build a message. -/
inductive Call where
  | openContainer (c : Container) (contents : List Char)
  | closeContainer
  | append (x : Basic)
  | appendBasic (x : Basic)
  | appendArray (bytes : List UInt8)
  deriving DecidableEq

def Call.name : Call → String
  | .openContainer _ _ => "sd_bus_message_open_container"
  | .closeContainer => "sd_bus_message_close_container"
  | .append _ => "sd_bus_message_append"
  | .appendBasic _ => "sd_bus_message_append_basic"
  | .appendArray _ => "sd_bus_message_append_array"

/-- What sd-bus returns for a call, given the calls before it. -/
abbrev SdBus := List Call → Call → ℤ

def ERRCTX_MAX_SIG_LEN : ℕ := 16

structure ErrorContext where
  sig₀ : Option Ptr
  len₀ : ℕ
  sig₁ : Option Ptr
  len₁ : ℕ
  depth : ℕ
  argc : ℕ
  deriving DecidableEq

structure AppendState where
  mem : Mem
  errctx : ErrorContext
  calls : List Call

/-- Why a function does not return: a Janet error, a bad memory access, or the depth is used up. -/
inductive Stop where
  | panic (msg : String)
  | fault
  | deep
  deriving DecidableEq

abbrev Append := EStateM Stop AppendState

def janetPanic {α : Type} (msg : String) : Append α := throw (.panic msg)

/-- `if (c) janet_panicf(msg)`. -/
def panicIf (c : Prop) [Decidable c] (msg : Append String) : Append Unit :=
  if c then msg >>= janetPanic else pure ()

/-- A checked memory access. -/
def access {α : Type} (f : Mem → Option α) : Append α := do
  match f (← get).mem with
  | some a => pure a
  | none => throw .fault

/-- A checked memory update. -/
def update (f : Mem → Option Mem) : Append Unit := do
  let m ← access f
  modify fun st => { st with mem := m }

def allocate (f : Mem → Ptr × Mem) : Append Ptr := do
  let (p, m) := f (← get).mem
  modify fun st => { st with mem := m }
  pure p

/-- `janet_scalloc(n, sizeof(char))`. -/
def janetScalloc (n : ℕ) : Append Ptr := allocate (·.calloc n)

def janetSfree (p : Ptr) : Append Unit := update (·.free p)

def memcpy (dst src : Ptr) (n : ℕ) : Append Unit := update (·.memcpy dst src n)

def memmove (dst src : Ptr) (n : ℕ) : Append Unit := update (·.memmove dst src n)

/-- A string as it is passed to a function. -/
def cstr (p : Ptr) : Append (List Char) := access (·.cstr p)

/-- A text with the string at `p` behind it. -/
def withStr (text : String) (p : Ptr) : Append String := do pure (text ++ String.ofList (← cstr p))

variable (rt : Runtime) (sd : SdBus)

/-- `CALL_SD_BUS_FUNC`. -/
def callSdBusFunc (c : Call) : Append Unit := do
  let st ← get
  let rv := sd st.calls c
  set { st with calls := st.calls ++ [c] }
  panicIf (rv < 0) (pure ("failed to call " ++ c.name ++ ": " ++ rt.strerror (-rv)))

/-! ### The error context -/

def dbusErrctxReset : Append Unit :=
  modify fun st => { st with errctx := ⟨none, 0, none, 0, 0, 0⟩ }

def dbusErrctxInc : Append Unit :=
  modify fun st => { st with errctx := { st.errctx with argc := st.errctx.argc + 1 } }

def dbusErrctxSet (sig : Ptr) (len : ℕ) : Append Unit :=
  modify fun st =>
    let e := { st.errctx with depth := st.errctx.depth + 1 }
    { st with errctx := if 1 < e.depth then { e with sig₁ := some sig, len₁ := len }
                        else { e with sig₀ := some sig, len₀ := len } }

def dbusErrctxExit : Append Unit :=
  modify fun st => { st with errctx := { st.errctx with depth := st.errctx.depth - 1 } }

/-- At most twelve characters, and dots for the rest. -/
def formatErrctx (sig : Option Ptr) (len : ℕ) : Append (Option String) :=
  match sig with
  | none => pure none
  | some p =>
    if len = 0 then pure none
    else do
      let n := if ERRCTX_MAX_SIG_LEN - 4 < len then ERRCTX_MAX_SIG_LEN - 4 else len
      let buf ← access (·.readN p n)
      pure (some (String.ofList ((buf ++ if n < len then ['.', '.', '.'] else []).takeWhile
        (· ≠ '\x00'))))

/-- The type below the argument's own, if the walker is there. -/
def formatChild (e : ErrorContext) : Append (Option String) :=
  if 1 < e.depth then formatErrctx e.sig₁ e.len₁ else pure none

def dbusTypeError {α : Type} (janet_type : String) (x : Janet) : Append α := do
  let e := (← get).errctx
  let expected := "expected " ++ janet_type ++ ", got " ++ rt.format_v x
  match ← formatErrctx e.sig₀ e.len₀ with
  | none =>
    janetPanic ("bad argument #" ++ toString e.argc ++ " (missing D-Bus type), " ++ expected)
  | some sigbuf =>
    match ← formatChild e with
    | some childbuf =>
      janetPanic ("bad argument #" ++ toString e.argc ++ " to D-Bus type '" ++ childbuf ++
        "' (within '" ++ sigbuf ++ "'), " ++ expected)
    | none =>
      janetPanic ("bad argument #" ++ toString e.argc ++ " to D-Bus type '" ++ sigbuf ++ "', " ++
        expected)

/-! ### Conversions -/

/-- A conversion that names the type it expected. -/
def getter {α : Type} (check : Janet → Option α) (janet_type : String) (x : Janet) : Append α :=
  match check x with
  | some a => pure a
  | none => dbusTypeError rt janet_type x

def getboolean : Janet → Append Bool :=
  getter rt (fun | .boolean b => some b | _ => none) "boolean"

def getnumber : Janet → Append Double :=
  getter rt (fun | .number x => some x | _ => none) "number"

def getuinteger8 : Janet → Append UInt8 := getter rt checkuint8 "8 bit unsigned integer"

def getinteger16 : Janet → Append (BitVec 16) := getter rt janetCheckint16 "16 bit signed integer"

def getuinteger16 : Janet → Append (BitVec 16) :=
  getter rt janetCheckuint16 "16 bit unsigned integer"

def getinteger : Janet → Append (BitVec 32) := getter rt janetCheckint "32 bit signed integer"

def getuinteger : Janet → Append (BitVec 32) := getter rt janetCheckuint "32 bit unsigned integer"

/-- With `JANET_INT_TYPES`: Janet's own conversion and message. -/
def getinteger64 (x : Janet) : Append (BitVec 64) :=
  match janetUnwrapS64 rt x with
  | some n => pure n
  | none => janetPanic ("can not convert " ++ rt.format_tq x ++ " to 64 bit signed integer")

def getuinteger64 (x : Janet) : Append (BitVec 64) :=
  match janetUnwrapU64 rt x with
  | some n => pure n
  | none => janetPanic ("can not convert " ++ rt.format_tq x ++ " to a 64 bit unsigned integer")

/-- A string with a NUL inside is refused by `janet_getcbytes`, not by the type check. -/
def getcstring (x : Janet) : Append CString := do
  let bs ← getter rt (fun | .string bs => some bs | _ => none) "string" x
  match janetGetcbytes bs with
  | some s => pure s
  | none => janetPanic "bytes contain embedded 0s"

def gettuple : Janet → Append (List Janet) :=
  getter rt (fun | .tuple xs => some xs | _ => none) "tuple"

def getbytes : Janet → Append (List UInt8) := getter rt janetBytesView "bytes"

def getindexed : Janet → Append (List Janet) := getter rt janetIndexedView "indexed"

def getdictionary : Janet → Append (List (Janet × Janet)) :=
  getter rt janetDictionaryView "dictionary"

def getfd : Janet → Append ℤ
  | .file closed fd =>
    if closed then janetPanic "bad argument to D-Bus type 'h', file is closed" else pure fd
  | .stream closed fd =>
    if closed then janetPanic "bad argument to D-Bus type 'h', stream is closed" else pure fd
  | x => dbusTypeError rt ":core/file or :core/stream" x

/-! ### Signatures -/

/-- `strchr` finds the NUL at the end of its string too. -/
def isBasicType (ch : Char) : Bool := "ybnqiuxtdsogh".toList.contains ch || ch = '\x00'

/-- The loop of `match`, after `length` characters at nesting `depth`. -/
def matchLoop (opn cls : Char) : ℕ → ℕ → List Char → Option ℕ
  | _, _, [] => none
  | depth, length, ch :: s =>
    let depth := if ch = opn then depth + 1 else if ch = cls then depth - 1 else depth
    if depth = 0 then some (length + 1) else matchLoop opn cls depth (length + 1) s

/-- `match`: the offset of the bracket that closes the first one. -/
def matchBracket (opn cls : Char) (str : List Char) : Except String ℕ :=
  match matchLoop opn cls 1 0 str.tail with
  | some length => .ok length
  | none => .error ("Unmatched " ++ String.ofList [opn] ++ " in signature")

def findSubtype : List Char → Except String ℕ
  | [] => .error "Missing array signature"
  | ch :: s =>
    if ch = 'a' then (findSubtype s).map (1 + ·)
    else if ch = '{' then matchBracket '{' '}' (ch :: s)
    else if ch = '(' then matchBracket '(' ')' (ch :: s)
    else .ok 0

def spanNextType (s : List Char) : Except String ℕ :=
  let ch := s.headD '\x00'
  if isBasicType ch || ch = 'v' then .ok 1
  else if ch = 'a' then (findSubtype s).map (1 + ·)
  else if ch = '(' then matchBracket '(' ')' s
  else .error ("Unsupported argument type: " ++ String.ofList [ch])

/-- Scanning functions read the string from `p` on. -/
def scan (f : List Char → Except String ℕ) (p : Ptr) : Append ℕ := do
  match f (← cstr p) with
  | .ok n => pure n
  | .error msg => janetPanic msg

def cursor (p : Ptr) : Append Char := access (·.read p)

def peek (p : Ptr) : Append Char := access (·.read (p.add 1))

/-- Moves on by `n` and reads there. -/
def skip (p : Ptr) (n : ℕ) : Append Ptr := do
  let _ ← cursor (p.add n)
  pure (p.add n)

def next (p : Ptr) : Append Ptr := skip p 1

/-! ### The walker -/

def appendBasicType (p : Ptr) (arg : Janet) : Append Unit := do
  match Code.ofChar (← cursor p) with
  | some .byte => do callSdBusFunc rt sd (.append (.byte (← getuinteger8 rt arg)))
  | some .boolean => do callSdBusFunc rt sd (.append (.boolean (← getboolean rt arg)))
  | some .int16 => do callSdBusFunc rt sd (.append (.int16 (← getinteger16 rt arg)))
  | some .uint16 => do callSdBusFunc rt sd (.append (.uint16 (← getuinteger16 rt arg)))
  | some .int32 => do callSdBusFunc rt sd (.append (.int32 (← getinteger rt arg)))
  | some .uint32 => do callSdBusFunc rt sd (.append (.uint32 (← getuinteger rt arg)))
  | some .int64 => do callSdBusFunc rt sd (.append (.int64 (← getinteger64 rt arg)))
  | some .uint64 => do callSdBusFunc rt sd (.append (.uint64 (← getuinteger64 rt arg)))
  | some .double => do callSdBusFunc rt sd (.append (.double (← getnumber rt arg)))
  | some .string => do callSdBusFunc rt sd (.appendBasic (.string (← getcstring rt arg)))
  | some .objectPath => do callSdBusFunc rt sd (.appendBasic (.objectPath (← getcstring rt arg)))
  | some .signature => do callSdBusFunc rt sd (.appendBasic (.signature (← getcstring rt arg)))
  | some .fd => do callSdBusFunc rt sd (.append (.fd (← getfd rt arg)))
  | none => pure ()

variable (rec : Ptr → Janet → Append Ptr)

def appendVariantType (p : Ptr) (arg : Janet) : Append Ptr := do
  match ← gettuple rt arg with
  | [sig, variant_arg] =>
    match sig with
    | .string bs =>
      match janetGetcbytes bs with
      | none => janetPanic "bytes contain embedded 0s"
      | some variant_sig =>
        -- the bytes of the Janet string, with the NUL Janet keeps behind them
        let q ← allocate (·.alloc (variant_sig.bytes.map Char.ofUInt8 ++ ['\x00']))
        callSdBusFunc rt sd (.openContainer .variant (← cstr q))
        let _ ← rec q variant_arg
        callSdBusFunc rt sd .closeContainer
        pure p
    | _ => janetPanic ("Expected string signature for variant, got " ++ rt.format_v sig)
  | _ => janetPanic "Variant type expects exactly 2 arguments"

/-- One argument for each complete type of `signature`, from `p` on: the loop of `append_data` and
    of `append_struct_type`. -/
def appendLoop (excessive : String) (enter : Append Unit) (signature : Ptr) :
    Ptr → List Janet → Append Ptr
  | p, [] => pure p
  | p, x :: xs => do
    let ch ← cursor p
    panicIf (ch = '\x00') (withStr excessive signature)
    enter
    let p ← rec p x
    let p ← next p
    appendLoop excessive enter signature p xs

def appendFields : Ptr → Ptr → List Janet → Append Ptr :=
  appendLoop rec "Excessive arguments for struct signature: " (pure ())

def appendStructType (p : Ptr) (arg : Janet) : Append Ptr := do
  let end_ ← scan (matchBracket '(' ')') p
  panicIf (end_ < 2) (withStr "Missing struct signature contents: " p)
  -- without the parentheses
  let struct_sig ← janetScalloc end_
  memcpy struct_sig (p.add 1) (end_ - 1)
  let p ← skip p end_
  callSdBusFunc rt sd (.openContainer .struct (← cstr struct_sig))
  let array ← getindexed rt arg
  panicIf (array.length = 0) (pure "Empty struct: missing arguments")
  let q ← appendFields rec struct_sig struct_sig array
  let ch ← cursor q
  panicIf (ch ≠ '\x00') (withStr "Arguments missing for struct signature: " struct_sig)
  callSdBusFunc rt sd .closeContainer
  janetSfree struct_sig
  pure p

/-- The loop of `append_dict_type`. -/
def appendEntries (dict_sig : Ptr) : List (Janet × Janet) → Append Unit
  | [] => pure ()
  | (key, value) :: kvs => do
    callSdBusFunc rt sd (.openContainer .dictEntry (← cstr dict_sig))
    appendBasicType rt sd dict_sig key
    let q ← next dict_sig
    let _ ← rec q value
    callSdBusFunc rt sd .closeContainer
    appendEntries dict_sig kvs

def appendDictType (p : Ptr) (arg : Janet) : Append Ptr := do
  let end_ ← scan (matchBracket '{' '}') p
  panicIf (end_ < 3) (withStr "incomplete dictionary signature: " p)
  -- with the braces, for the array
  let dict_sig ← janetScalloc (end_ + 2)
  memcpy dict_sig p (end_ + 1)
  let p ← skip p end_
  let key ← cursor (dict_sig.add 1)
  panicIf (isBasicType key = false)
    (withStr "dictionary signature key must be a basic type: " dict_sig)
  callSdBusFunc rt sd (.openContainer .array (← cstr dict_sig))
  -- without them, for the entries
  memmove dict_sig (dict_sig.add 1) (end_ - 1)
  update (·.write (dict_sig.add (end_ - 1)) ['\x00'])
  let dict ← getdictionary rt arg
  appendEntries rt sd rec dict_sig dict
  callSdBusFunc rt sd .closeContainer
  janetSfree dict_sig
  pure p

/-- The loop of `append_array_type`. -/
def appendElements (array_sig : Ptr) : List Janet → Append Unit
  | [] => pure ()
  | x :: xs => do
    let _ ← rec array_sig x
    appendElements array_sig xs

def appendArrayType (p : Ptr) (arg : Janet) : Append Ptr := do
  let ch ← peek p
  if ch = '{' then do
    let p ← next p
    appendDictType rt sd rec p arg
  else if ch = 'y' then do
    let p ← next p
    let view ← getbytes rt arg
    callSdBusFunc rt sd (.appendArray view)
    pure p
  else do
    let end_ ← scan findSubtype p
    let array_sig ← janetScalloc (end_ + 1)
    memcpy array_sig (p.add 1) end_
    let p ← skip p end_
    callSdBusFunc rt sd (.openContainer .array (← cstr array_sig))
    let array ← getindexed rt arg
    appendElements rec array_sig array
    callSdBusFunc rt sd .closeContainer
    janetSfree array_sig
    pure p

/-- The branches of `append_complete_type`. -/
def appendBranch (ch : Char) (p : Ptr) (arg : Janet) : Append Ptr :=
  if isBasicType ch then do
    appendBasicType rt sd p arg
    pure p
  else if ch = 'v' then appendVariantType rt sd rec p arg
  else if ch = '(' then appendStructType rt sd rec p arg
  else if ch = 'a' then appendArrayType rt sd rec p arg
  else janetPanic ("Unsupported argument type: " ++ String.ofList [ch])

/-- The body of `append_complete_type`. -/
def appendCompleteBody (p : Ptr) (arg : Janet) : Append Ptr := do
  let len ← scan spanNextType p
  dbusErrctxSet p len
  let ch ← cursor p
  let p ← appendBranch rt sd rec ch p arg
  dbusErrctxExit
  pure p

/-- `append_complete_type`, for values less than `n` deep. -/
def appendCompleteType : ℕ → Ptr → Janet → Append Ptr
  | 0, _, _ => throw .deep
  | n + 1, p, arg => appendCompleteBody rt sd (appendCompleteType n) p arg

def appendArgs : Ptr → Ptr → List Janet → Append Ptr :=
  appendLoop rec "Excessive arguments for signature: " dbusErrctxInc

/-- `append_data`, for a signature in memory. The result is where the cursor stands. -/
def appendData (signature : Ptr) (args : List Janet) : Append Ptr := do
  dbusErrctxReset
  let p ← appendArgs (appendCompleteType rt sd (depthAll args + 1)) signature signature args
  let ch ← cursor p
  panicIf (ch ≠ '\x00') (withStr "Arguments missing for signature: " signature)
  pure p

/-- `cfun_message_append`, after its first argument. -/
def cfunMessageAppend (signature : Janet) (args : List Janet) : Append Unit := do
  panicIf (args.length = 0) (pure "arity mismatch, expected at least 3, got 2")
  match signature with
  | .string bs =>
    match janetGetcbytes bs with
    | none => janetPanic "string contains embedded 0s"
    | some s =>
      let p ← allocate (·.alloc (s.bytes.map Char.ofUInt8 ++ ['\x00']))
      let _ ← appendData rt sd p args
  | _ => janetPanic ("bad slot #1, expected string, got " ++ rt.format_v signature)

end JanetSdbus.Message
