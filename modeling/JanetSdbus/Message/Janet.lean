import JanetSdbus.DBus.Value

/-! Janet values, as the message functions see them.

    The conversions of `unwrap.c` and of Janet's own API are here as partial functions: `none` where
    the C code raises. `convert` puts them together: the D-Bus value a Janet value is accepted as,
    for each basic type. -/

namespace JanetSdbus.Message
open DBus

/-- Pairs of dictionaries stand in the order `janet_dictionary_next` visits them. -/
inductive Janet where
  | nil
  | boolean (b : Bool)
  | number (x : Double)
  | string (bytes : List UInt8)
  | symbol (bytes : List UInt8)
  | keyword (bytes : List UInt8)
  | buffer (bytes : List UInt8)
  | tuple (xs : List Janet)
  | array (xs : List Janet)
  | struct (kvs : List (Janet × Janet))
  | table (kvs : List (Janet × Janet))
  | s64 (x : BitVec 64)
  | u64 (x : BitVec 64)
  | file (closed : Bool) (fd : ℤ)
  | stream (closed : Bool) (fd : ℤ)
  | other (id : ℕ)

/-- What the model leaves to Janet and to libc: parsing and printing. -/
structure Runtime where
  janet_scan_int64 : List UInt8 → Option (BitVec 64)
  janet_scan_uint64 : List UInt8 → Option (BitVec 64)
  /-- `%v` -/
  format_v : Janet → String
  /-- `%t %q` -/
  format_tq : Janet → String
  strerror : ℤ → String

/-! ### Views -/

def janetBytesView : Janet → Option (List UInt8)
  | .string bs | .symbol bs | .keyword bs | .buffer bs => some bs
  | _ => none

def janetIndexedView : Janet → Option (List Janet)
  | .tuple xs | .array xs => some xs
  | _ => none

def janetDictionaryView : Janet → Option (List (Janet × Janet))
  | .struct kvs | .table kvs => some kvs
  | _ => none

/-! ### Atoms -/

/-- Values that hold no other values and no bytes that may change. -/
def Janet.isAtom : Janet → Bool
  | .buffer _ | .tuple _ | .array _ | .struct _ | .table _ => false
  | _ => true

def Janet.sameAtom : Janet → Janet → Bool
  | .nil, .nil => true
  | .boolean a, .boolean b => a = b
  | .number x, .number y => x = y
  | .string a, .string b | .symbol a, .symbol b | .keyword a, .keyword b => a = b
  | .s64 x, .s64 y | .u64 x, .u64 y => x = y
  | .file c n, .file d m | .stream c n, .stream d m => c = d ∧ n = m
  | .other n, .other m => n = m
  | _, _ => false

theorem sameAtom_iff {x y : Janet} (hx : x.isAtom = true) : x.sameAtom y = true ↔ x = y := by
  cases x with
  | buffer | tuple | array | struct | table => simp [Janet.isAtom] at hx
  | _ => cases y <;> simp [Janet.sameAtom]

/-! ### Depth -/

mutual
def Janet.depth : Janet → ℕ
  | .tuple xs => depthAll xs + 1
  | .array xs => depthAll xs + 1
  | .struct kvs => depthEntries kvs + 1
  | .table kvs => depthEntries kvs + 1
  | _ => 0
def depthAll : List Janet → ℕ
  | [] => 0
  | x :: xs => max x.depth (depthAll xs)
def depthEntries : List (Janet × Janet) → ℕ
  | [] => 0
  | (k, v) :: kvs => max (max k.depth v.depth) (depthEntries kvs)
end

theorem depth_le_all : ∀ {xs : List Janet} {x : Janet}, x ∈ xs → x.depth ≤ depthAll xs
  | y :: ys, x, h => by
    rw [depthAll]
    rcases List.mem_cons.mp h with rfl | h
    · exact Nat.le_max_left _ _
    · exact Nat.le_trans (depth_le_all h) (Nat.le_max_right _ _)

theorem depth_le_entries : ∀ {kvs : List (Janet × Janet)} {kv : Janet × Janet}, kv ∈ kvs →
    kv.2.depth ≤ depthEntries kvs
  | (k, v) :: kvs, kv, h => by
    rw [depthEntries]
    rcases List.mem_cons.mp h with rfl | h
    · exact Nat.le_trans (Nat.le_max_right _ _) (Nat.le_max_left _ _)
    · exact Nat.le_trans (depth_le_entries h) (Nat.le_max_right _ _)

theorem depth_indexed {v x : Janet} {xs : List Janet} (h : janetIndexedView v = some xs)
    (hx : x ∈ xs) : x.depth < v.depth := by
  cases v with
  | tuple ys =>
    obtain rfl : ys = xs := Option.some.inj h
    exact Nat.lt_succ_of_le (by simpa [Janet.depth] using depth_le_all hx)
  | array ys =>
    obtain rfl : ys = xs := Option.some.inj h
    exact Nat.lt_succ_of_le (by simpa [Janet.depth] using depth_le_all hx)
  | _ => simp [janetIndexedView] at h

theorem depth_dictionary {v : Janet} {kvs : List (Janet × Janet)} {kv : Janet × Janet}
    (h : janetDictionaryView v = some kvs) (hkv : kv ∈ kvs) : kv.2.depth < v.depth := by
  cases v with
  | struct ys =>
    obtain rfl : ys = kvs := Option.some.inj h
    exact Nat.lt_succ_of_le (by simpa [Janet.depth] using depth_le_entries hkv)
  | table ys =>
    obtain rfl : ys = kvs := Option.some.inj h
    exact Nat.lt_succ_of_le (by simpa [Janet.depth] using depth_le_entries hkv)
  | _ => simp [janetDictionaryView] at h

/-! ### Conversions -/

/-- A number that is an integer between the bounds. -/
def Janet.integer (lo hi : ℤ) : Janet → Option ℤ
  | .number (.fin q) => if q.den = 1 ∧ lo ≤ q.num ∧ q.num ≤ hi then some q.num else none
  | _ => none

def checkuint8 (x : Janet) : Option UInt8 := (x.integer 0 255).map fun n => UInt8.ofNat n.toNat

def janetCheckint16 (x : Janet) : Option (BitVec 16) :=
  (x.integer (-32768) 32767).map (BitVec.ofInt 16)

def janetCheckuint16 (x : Janet) : Option (BitVec 16) := (x.integer 0 65535).map (BitVec.ofInt 16)

def janetCheckint (x : Janet) : Option (BitVec 32) :=
  (x.integer (-2147483648) 2147483647).map (BitVec.ofInt 32)

def janetCheckuint (x : Janet) : Option (BitVec 32) :=
  (x.integer 0 4294967295).map (BitVec.ofInt 32)

/-- Integers up to this bound have a double of their own. -/
def MAX_INT_IN_DBL : ℤ := 9007199254740992

variable (rt : Runtime)

def janetUnwrapS64 (x : Janet) : Option (BitVec 64) :=
  match x with
  | .number _ => (x.integer (-MAX_INT_IN_DBL) MAX_INT_IN_DBL).map (BitVec.ofInt 64)
  | .string s => rt.janet_scan_int64 s
  | .s64 n | .u64 n => some n
  | _ => none

def janetUnwrapU64 (x : Janet) : Option (BitVec 64) :=
  match x with
  | .number _ => (x.integer 0 MAX_INT_IN_DBL).map (BitVec.ofInt 64)
  | .string s => rt.janet_scan_uint64 s
  | .s64 n | .u64 n => some n
  | _ => none

/-- `janet_getcbytes` of a string. -/
def janetGetcbytes (bs : List UInt8) : Option CString := if h : 0 ∉ bs then some ⟨bs, h⟩ else none

def Janet.cstring : Janet → Option CString
  | .string bs => janetGetcbytes bs
  | _ => none

/-- The descriptor of a file or a stream that is open. -/
def Janet.descriptor : Janet → Option ℤ
  | .file false fd | .stream false fd => some fd
  | _ => none

def convert : Code → Janet → Option Basic
  | .byte, x => (checkuint8 x).map .byte
  | .boolean, .boolean b => some (.boolean b)
  | .boolean, _ => none
  | .int16, x => (janetCheckint16 x).map .int16
  | .uint16, x => (janetCheckuint16 x).map .uint16
  | .int32, x => (janetCheckint x).map .int32
  | .uint32, x => (janetCheckuint x).map .uint32
  | .int64, x => (janetUnwrapS64 rt x).map .int64
  | .uint64, x => (janetUnwrapU64 rt x).map .uint64
  | .double, .number x => some (.double x)
  | .double, _ => none
  | .string, x => x.cstring.map .string
  | .objectPath, x => x.cstring.map .objectPath
  | .signature, x => x.cstring.map .signature
  | .fd, x => x.descriptor.map .fd

theorem convert_code {rt : Runtime} {c : Code} {v : Janet} {x : Basic} (h : convert rt c v = some x) :
    x.code = c := by
  cases c with
  | boolean =>
    cases v with
    | boolean b => rw [← Option.some.inj h]; rfl
    | _ => simp [convert] at h
  | double =>
    cases v with
    | number d => rw [← Option.some.inj h]; rfl
    | _ => simp [convert] at h
  | _ =>
    obtain ⟨_, _, rfl⟩ := Option.map_eq_some_iff.mp h
    rfl

end JanetSdbus.Message
