import Mathlib.Data.List.Forall2
import Mathlib.Data.Rat.Defs
import JanetSdbus.DBus.Signature

/-! D-Bus values.

    A message body is a list of items: basic values, and containers that carry their contents
    signature. `HasTy` says which items are values of a type, and `Same` when two of them are the
    same value: a dictionary has no order, so its entries may be permuted, at any depth. -/

namespace DBus

/-- Doubles as numbers. The two zeros are one number, so the sign of a zero is not kept. -/
inductive Double where
  | nan
  | inf (neg : Bool)
  | fin (q : ℚ)
  deriving DecidableEq

/-- The bytes of a C string. -/
structure CString where
  bytes : List UInt8
  nul_free : (0 : UInt8) ∉ bytes
  deriving DecidableEq

inductive Basic where
  | byte (x : UInt8)
  | boolean (x : Bool)
  | int16 (x : BitVec 16)
  | uint16 (x : BitVec 16)
  | int32 (x : BitVec 32)
  | uint32 (x : BitVec 32)
  | int64 (x : BitVec 64)
  | uint64 (x : BitVec 64)
  | double (x : Double)
  | string (x : CString)
  | objectPath (x : CString)
  | signature (x : CString)
  | fd (x : ℤ)
  deriving DecidableEq

def Basic.code : Basic → Code
  | .byte _ => .byte
  | .boolean _ => .boolean
  | .int16 _ => .int16
  | .uint16 _ => .uint16
  | .int32 _ => .int32
  | .uint32 _ => .uint32
  | .int64 _ => .int64
  | .uint64 _ => .uint64
  | .double _ => .double
  | .string _ => .string
  | .objectPath _ => .objectPath
  | .signature _ => .signature
  | .fd _ => .fd

inductive Item where
  | basic (x : Basic)
  | container (c : Container) (contents : List Char) (items : List Item)

/-- The item that an array of bytes is. -/
def bytesItem (bs : List UInt8) : Item :=
  .container .array [Code.byte.char] (bs.map fun b => .basic (.byte b))

def entryItem (k : Code) (v : Ty) (x : Basic) (i : Item) : Item :=
  .container .dictEntry (k.char :: v.render) [.basic x, i]

/-! ### Typing -/

mutual
/-- `i` is a value of type `t`. -/
inductive Item.HasTy : Ty → Item → Prop where
  | basic (x : Basic) : Item.HasTy (.basic x.code) (.basic x)
  | variant (t : Ty) (i : Item) : Item.HasTy t i →
      Item.HasTy .variant (.container .variant t.render [i])
  | array (t : Ty) (is : List Item) : Item.EachHasTy t is →
      Item.HasTy (.array t) (.container .array t.render is)
  | dict (k : Code) (v : Ty) (es : List Item) : Item.EntriesHaveTy k v es →
      Item.HasTy (.dict k v) (.container .array (renderEntry k v) es)
  | struct (t : Ty) (ts : List Ty) (is : List Item) : Item.HaveTys (t :: ts) is →
      Item.HasTy (.struct t ts) (.container .struct (renderAll (t :: ts)) is)
inductive Item.EachHasTy : Ty → List Item → Prop where
  | nil (t : Ty) : Item.EachHasTy t []
  | cons (t : Ty) (i : Item) (is : List Item) : Item.HasTy t i → Item.EachHasTy t is →
      Item.EachHasTy t (i :: is)
inductive Item.EntriesHaveTy : Code → Ty → List Item → Prop where
  | nil (k : Code) (v : Ty) : Item.EntriesHaveTy k v []
  | cons (x : Basic) (v : Ty) (i : Item) (es : List Item) : Item.HasTy v i →
      Item.EntriesHaveTy x.code v es → Item.EntriesHaveTy x.code v (entryItem x.code v x i :: es)
inductive Item.HaveTys : List Ty → List Item → Prop where
  | nil : Item.HaveTys [] []
  | cons (t : Ty) (ts : List Ty) (i : Item) (is : List Item) : Item.HasTy t i →
      Item.HaveTys ts is → Item.HaveTys (t :: ts) (i :: is)
end

/-! ### Sameness -/

mutual
/-- The same value: equal up to the order of dictionary entries, at any depth. -/
inductive Item.Same : Item → Item → Prop where
  | basic (x : Basic) : Item.Same (.basic x) (.basic x)
  | container (c : Container) (s : List Char) (is js : List Item) : Item.AllSame is js →
      Item.Same (.container c s is) (.container c s js)
  | entries (s : List Char) (is ks js : List Item) : is.Perm ks → Item.AllSame ks js →
      Item.Same (.container .array ('{' :: s) is) (.container .array ('{' :: s) js)
inductive Item.AllSame : List Item → List Item → Prop where
  | nil : Item.AllSame [] []
  | cons (i j : Item) (is js : List Item) : Item.Same i j → Item.AllSame is js →
      Item.AllSame (i :: is) (j :: js)
end

mutual
theorem Item.Same.refl : ∀ i : Item, Item.Same i i
  | .basic x => .basic x
  | .container c s is => .container c s is is (Item.AllSame.refl is)
theorem Item.AllSame.refl : ∀ is : List Item, Item.AllSame is is
  | [] => .nil
  | i :: is => .cons i i is is (Item.Same.refl i) (Item.AllSame.refl is)
end

end DBus
