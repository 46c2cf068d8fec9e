import JanetSdbus.Message.Guard

/-! What becomes of an argument, from the signature and the value alone.

    `judge` walks over the characters of a signature and over a value as the encoder does, without
    memory and without sd-bus. Its verdict is that the encoder returns or raises, or that it goes
    wrong; there are two ways to go wrong. A variant may have an empty signature, and then the
    encoder is entered at the end of a string. And a key of a dictionary that is inside another
    container may be of a wrong type, behind an entry whose value left the error context with a span
    in a copy that is released by then: the error is formatted from released memory. -/

namespace JanetSdbus.Message
open DBus

/-- Where the error context's inner span lies when the walk over a value is over: in the string the
    walk began in, in a copy that has been released, or in a string that Janet holds. -/
inductive Trail where
  | own
  | released
  | kept
  deriving DecidableEq

/-- The string the walk began in was a copy, and is released. -/
def Trail.release : Trail → Trail
  | .own => .released
  | t => t

/-- The string the walk began in was the signature of a variant. -/
def Trail.keep : Trail → Trail
  | .own => .kept
  | t => t

inductive Verdict where
  | wrong
  | raises
  | done (t : Trail)
  deriving DecidableEq

def Verdict.bind : Verdict → (Trail → Verdict) → Verdict
  | .done t, f => f t
  | .wrong, _ => .wrong
  | .raises, _ => .raises

def Verdict.map (f : Trail → Trail) (v : Verdict) : Verdict := v.bind fun t => .done (f t)

variable (rt : Runtime) (rec : List Char → Janet → Verdict)

/-- One argument for each type; the string is not at its end. -/
def judgeLoop : List Char → List Janet → Trail → Verdict
  | _, [], t => .done t
  | s, x :: xs, _ =>
    if s = [] then .raises
    else (rec s x).bind fun t =>
      match stride s with
      | .ok k => judgeLoop (s.drop (k + 1)) xs t.release
      | .error _ => .raises

/-- What is left of the string behind the loop. -/
def leftover : List Char → List Janet → List Char
  | s, [] => s
  | s, _ :: xs =>
    match stride s with
    | .ok k => leftover (s.drop (k + 1)) xs
    | .error _ => s

def judgeFields (s : List Char) (xs : List Janet) : Verdict :=
  (judgeLoop rec s xs .own).bind fun t => if leftover s xs = [] then .done t else .raises

def judgeElements (s : List Char) : List Janet → Trail → Verdict
  | [], t => .done t
  | x :: xs, _ => (rec s x).bind fun t => judgeElements s xs t.release

/-- The value is one that the basic type at the front of `s` takes. -/
def converts (s : List Char) (v : Janet) : Bool :=
  ((Code.ofChar (s.headD '\x00')).bind fun c => convert rt c v).isSome

/-- The conversion fails at a check that names the type it expected. The 64-bit integers, strings
    with a NUL inside and closed files have an error of Janet's own. -/
def typeFails : Code → Janet → Bool
  | .int64, _ | .uint64, _ => false
  | .string, .string _ | .objectPath, .string _ | .signature, .string _ => false
  | .fd, .file _ _ | .fd, .stream _ _ => false
  | c, v => (convert rt c v).isNone

def mistyped (s : List Char) (v : Janet) : Bool :=
  ((Code.ofChar (s.headD '\x00')).map fun c => typeFails rt c v).getD false

/-- `stale`: the span of the last value is in a released copy. -/
def judgeKey (inner stale : Bool) (s : List Char) (key : Janet) : Verdict :=
  if converts rt s key then .done .own
  else if inner && stale && mistyped rt s key then .wrong
  else .raises

def judgeEntries (inner : Bool) (s : List Char) : List (Janet × Janet) → Trail → Bool → Verdict
  | [], t, _ => .done t
  | (key, value) :: kvs, _, stale =>
    (judgeKey rt inner stale s key).bind fun _ => (rec s.tail value).bind fun t =>
      judgeEntries inner s kvs t.release (t = .released)

/-- What stands between the bracket at the front of `s` and the `n`-th character. -/
def inside (s : List Char) (n : ℕ) : List Char := s.tail.take (n - 1)

def judgeStruct (s : List Char) (v : Janet) : Verdict :=
  match matchBracket '(' ')' s with
  | .error _ => .raises
  | .ok n =>
    if n < 2 then .raises
    else match janetIndexedView v with
      | none => .raises
      | some xs => if xs.length = 0 then .raises else judgeFields rec (inside s n) xs

def judgeDict (inner : Bool) (s : List Char) (v : Janet) : Verdict :=
  match matchBracket '{' '}' s with
  | .error _ => .raises
  | .ok n =>
    if n < 3 then .raises
    else if isBasicType ((inside s n).headD '\x00') = false then .raises
    else match janetDictionaryView v with
      | none => .raises
      | some kvs => judgeEntries rt rec inner (inside s n) kvs .own false

def judgeArray (inner : Bool) (s : List Char) (v : Janet) : Verdict :=
  if s.tail.headD '\x00' = '{' then judgeDict rt rec inner s.tail v
  else if s.tail.headD '\x00' = 'y' then if (janetBytesView v).isSome then .done .own else .raises
  else match findSubtype s with
    | .error _ => .raises
    | .ok n =>
      match janetIndexedView v with
      | none => .raises
      | some xs => judgeElements rec (s.tail.take n) xs .own

def judgeVariant : Janet → Verdict
  | .tuple [.string bs, x] => if 0 ∈ bs then .raises else (rec (chars bs) x).map Trail.keep
  | _ => .raises

/-- `inner` where the type is not the argument's own. -/
def judgeBody (inner : Bool) (s : List Char) (v : Janet) : Verdict :=
  if s = [] then .wrong
  else if (spanNextType s).isOk = false then .raises
  else if isBasicType (s.headD '\x00') then if converts rt s v then .done .own else .raises
  else if s.headD '\x00' = 'v' then judgeVariant rec v
  else if s.headD '\x00' = '(' then judgeStruct rec s v
  else judgeArray rt rec inner s v

def judge : ℕ → Bool → List Char → Janet → Verdict
  | 0, _, _, _ => .wrong
  | n + 1, inner, s, v => judgeBody rt (judge n true) inner s v

/-- The verdict on a whole signature and its arguments. -/
def judgeData (s : List Char) (args : List Janet) : Verdict :=
  judgeFields (judge rt (depthAll args + 1) false) s args

end JanetSdbus.Message
