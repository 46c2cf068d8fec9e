import Mathlib.Data.List.Nodup
import JanetSdbus.Export.Vtable

/-! Dictionaries, as `introspect.janet` makes and asks them.

    The pairs of a dictionary stand in the order in which they were put. Nothing depends on it:
    `(first (values child))` is asked of dictionaries with one pair, and of annotations, whose values
    are both strings. A dictionary that is put together has no key twice (`put_keys`), and holds
    each pair whose key comes only once (`putAll_fresh`). -/

namespace JanetSdbus.Introspect
open Message
open Export (bytesOf)

def kw (s : String) : Janet := .keyword (bytesOf s)

def str (s : String) : Janet := .string (bytesOf s)

/-- `(keyword x)` of bytes; nothing else is turned into a keyword here. -/
def keyword (x : Janet) : Janet := .keyword ((janetBytesView x).getD [])

def truthy : Janet → Bool
  | .nil | .boolean false => false
  | _ => true

def isNil : Janet → Bool
  | .nil => true
  | _ => false

/-- `(default x y)` -/
def default (x y : Janet) : Janet := if isNil x then y else x

def pairs (ds : Janet) : List (Janet × Janet) := (janetDictionaryView ds).getD []

def elements (ds : Janet) : List Janet := (janetIndexedView ds).getD []

def find (key : Janet) : List (Janet × Janet) → Janet
  | [] => .nil
  | (k, v) :: kvs => if key.sameAtom k then v else find key kvs

/-- `(get ds key)`, `(in ds key)` and `(ds key)`, of a dictionary. -/
def get (ds key : Janet) : Janet := find key (pairs ds)

def put (key value : Janet) : List (Janet × Janet) → List (Janet × Janet)
  | [] => [(key, value)]
  | (k, v) :: kvs => if key.sameAtom k then (k, value) :: kvs else (k, v) :: put key value kvs

/-- The last value of a key counts, and `nil` is none. -/
def putAll (kvs new : List (Janet × Janet)) : List (Janet × Janet) :=
  new.foldl (fun kvs kv => if isNil kv.2 then kvs else put kv.1 kv.2 kvs) kvs

/-- `{k v ...}` -/
def literal (kvs : List (Janet × Janet)) : Janet := .struct (putAll [] kvs)

def pairUp : List Janet → Option (List (Janet × Janet))
  | [] => some []
  | [_] => none
  | k :: v :: xs => (pairUp xs).map ((k, v) :: ·)

def struct (args : List Janet) : Except String Janet :=
  match pairUp args with
  | some kvs => .ok (literal kvs)
  | none => .error "expected even number of arguments"

/-- `(merge ;colls)` -/
def merge (colls : List Janet) : Janet := .table (colls.foldl (fun kvs coll => putAll kvs (pairs coll)) [])

/-- `(filter pred ind)` -/
def filter (pred : Janet → Bool) (ind : Janet) : Janet := .array ((elements ind).filter pred)

/-- A group is there as soon as something is in it. -/
def group : List Janet → Janet
  | [] => .nil
  | x :: xs => .array (x :: xs)

/-- `(get (group-by f ind) b)` -/
def groupBy (f : Janet → Bool) (ind : Janet) (b : Bool) : Janet := group ((elements ind).filter fun x => f x = b)

def dictionary? (x : Janet) : Bool := (janetDictionaryView x).isSome

/-- `(first (values ds))` -/
def firstValue (ds : Janet) : Janet := ((pairs ds).head?.map (·.2)).getD .nil

/-! ### Keys -/

/-- Keywords are told apart by their bytes. -/
def IsKeyword (k : Janet) : Prop := ∃ bs, k = .keyword bs

theorem sameAtom_keyword {k k' : Janet} (h : IsKeyword k) : k.sameAtom k' = true ↔ k = k' := by
  obtain ⟨bs, rfl⟩ := h
  exact sameAtom_iff rfl

theorem bytesOf_injective {a b : String} (h : bytesOf a = bytesOf b) : a = b :=
  String.toByteArray_inj.mp (ByteArray.ext (Array.ext' h))

theorem kw_injective {a b : String} (h : kw a = kw b) : a = b := bytesOf_injective (Janet.keyword.inj h)

theorem isKeyword_kw (w : String) : IsKeyword (kw w) := ⟨_, rfl⟩

def keys (kvs : List (Janet × Janet)) : List Janet := kvs.map Prod.fst

/-- A dictionary: keywords, none of them twice. -/
structure IsDict (kvs : List (Janet × Janet)) : Prop where
  keywords : ∀ k ∈ keys kvs, IsKeyword k
  nodup : (keys kvs).Nodup

theorem isDict_nil : IsDict [] := ⟨fun _ h => absurd h (by simp [keys]), List.nodup_nil⟩

theorem isDict_kw {kvs : List (Janet × Janet)} (ws : List String) (h : ws.Nodup) (hkeys : keys kvs = ws.map kw) :
    IsDict kvs := by
  constructor
  · rw [hkeys]
    intro k hk
    obtain ⟨w, _, rfl⟩ := List.mem_map.mp hk
    exact isKeyword_kw w
  · rw [hkeys]
    exact List.Nodup.map (fun _ _ => kw_injective) h

/-! ### Put -/

/-- A known key keeps its place. -/
theorem put_known {key value : Janet} (hkey : IsKeyword key) {kvs : List (Janet × Janet)} (h : key ∈ keys kvs) :
    keys (put key value kvs) = keys kvs := by
  induction kvs with
  | nil => exact absurd h (by simp [keys])
  | cons kv kvs ih =>
    obtain ⟨k, v⟩ := kv
    rw [put]
    split
    · rfl
    · next hk =>
      have hne : key ≠ k := fun heq => hk ((sameAtom_keyword hkey).mpr heq)
      exact congrArg (k :: ·) (ih ((List.mem_cons.mp h).resolve_left hne))

/-- A new key comes last. -/
theorem put_fresh {key value : Janet} (hkey : IsKeyword key) {kvs : List (Janet × Janet)} (h : key ∉ keys kvs) :
    put key value kvs = kvs ++ [(key, value)] := by
  induction kvs with
  | nil => rfl
  | cons kv kvs ih =>
    obtain ⟨k, v⟩ := kv
    have hne : key ≠ k := fun hk => h (hk ▸ List.mem_cons_self)
    rw [put, if_neg (fun hs => hne ((sameAtom_keyword hkey).mp hs)),
      ih fun hmem => h (List.mem_cons_of_mem _ hmem), List.cons_append]

theorem put_keys {key value k : Janet} (hkey : IsKeyword key) {kvs : List (Janet × Janet)} :
    k ∈ keys (put key value kvs) ↔ k ∈ keys kvs ∨ k = key := by
  by_cases h : key ∈ keys kvs
  · rw [put_known hkey h]
    exact ⟨.inl, fun hk => hk.elim id fun heq => heq ▸ h⟩
  · rw [put_fresh hkey h]
    simp [keys]

theorem put_isDict {key value : Janet} (hkey : IsKeyword key) {kvs : List (Janet × Janet)} (h : IsDict kvs) :
    IsDict (put key value kvs) := by
  constructor
  · intro k hk
    rcases (put_keys hkey).mp hk with hk | rfl
    · exact h.keywords k hk
    · exact hkey
  · by_cases hmem : key ∈ keys kvs
    · rw [put_known hkey hmem]
      exact h.nodup
    · rw [put_fresh hkey hmem, keys, List.map_append, List.nodup_append]
      refine ⟨h.nodup, by simp, fun a ha b hb hab => hmem ?_⟩
      obtain rfl : b = key := List.mem_singleton.mp hb
      exact hab ▸ ha

/-! ### Find -/

theorem find_cons {key k v : Janet} (hkey : IsKeyword key) (kvs : List (Janet × Janet)) :
    (key = k → find key ((k, v) :: kvs) = v) ∧ (key ≠ k → find key ((k, v) :: kvs) = find key kvs) := by
  refine ⟨fun h => ?_, fun h => ?_⟩
  · rw [find, if_pos ((sameAtom_keyword hkey).mpr h)]
  · rw [find, if_neg (fun hs => h ((sameAtom_keyword hkey).mp hs))]

theorem find_mem {key value : Janet} {kvs : List (Janet × Janet)} (h : IsDict kvs) (hmem : (key, value) ∈ kvs) :
    find key kvs = value := by
  have hkey := h.keywords key (List.mem_map_of_mem (f := Prod.fst) hmem)
  induction kvs with
  | nil => exact absurd hmem (by simp)
  | cons kv kvs ih =>
    obtain ⟨k, v⟩ := kv
    have hnodup := List.nodup_cons.mp h.nodup
    rcases List.mem_cons.mp hmem with heq | hmem
    · obtain ⟨rfl, rfl⟩ := (Prod.mk.injEq ..).mp heq
      exact (find_cons hkey kvs).1 rfl
    · have hrest : key ∈ kvs.map Prod.fst := List.mem_map_of_mem (f := Prod.fst) hmem
      have hne : key ≠ k := fun hk => hnodup.1 (hk ▸ hrest)
      rw [(find_cons hkey kvs).2 hne]
      exact ih ⟨fun k' hk' => h.keywords k' (List.mem_cons_of_mem _ hk'), hnodup.2⟩ hmem

theorem find_not_mem {key : Janet} (hkey : IsKeyword key) {kvs : List (Janet × Janet)} (h : key ∉ keys kvs) :
    find key kvs = .nil := by
  induction kvs with
  | nil => rfl
  | cons kv kvs ih =>
    rw [(find_cons hkey kvs).2 fun hk => h (hk ▸ List.mem_cons_self)]
    exact ih fun hmem => h (List.mem_cons_of_mem _ hmem)

theorem find_put {key k v : Janet} (hkey : IsKeyword key) (hk : IsKeyword k) (kvs : List (Janet × Janet)) :
    find key (put k v kvs) = find key ((k, v) :: kvs) := by
  induction kvs with
  | nil => rfl
  | cons kv kvs ih =>
    obtain ⟨k', v'⟩ := kv
    rw [put]
    by_cases hsame : k = k'
    · subst hsame
      rw [if_pos ((sameAtom_keyword hk).mpr rfl), find, find, find]
      split <;> rfl
    · rw [if_neg (fun h => hsame ((sameAtom_keyword hk).mp h)), find, ih, find, find, find]
      by_cases h : key = k
      · subst h
        rw [if_neg (fun h => hsame ((sameAtom_keyword hk).mp h))]
        simp only [(sameAtom_keyword hk).mpr rfl, if_true]
      · rw [if_neg (fun hs => h ((sameAtom_keyword hkey).mp hs)), if_neg (fun hs => h ((sameAtom_keyword hkey).mp hs))]

theorem find_append {key : Janet} {xs ys zs : List (Janet × Janet)} (h : find key ys = find key zs) :
    find key (xs ++ ys) = find key (xs ++ zs) := by
  induction xs with
  | nil => exact h
  | cons x xs ih =>
    rw [List.cons_append, List.cons_append, find, find, ih]

/-! ### Put together -/

theorem putAll_cons {kvs new : List (Janet × Janet)} {kv : Janet × Janet} (h : isNil kv.2 = false) :
    putAll kvs (kv :: new) = putAll (put kv.1 kv.2 kvs) new := by
  rw [putAll, List.foldl_cons, h]
  rfl

theorem putAll_isDict {new : List (Janet × Janet)} (hnew : ∀ k ∈ keys new, IsKeyword k) :
    ∀ {kvs : List (Janet × Janet)}, IsDict kvs → IsDict (putAll kvs new) := by
  induction new with
  | nil => exact fun h => h
  | cons kv new ih =>
    intro kvs h
    have htail := fun k hk => hnew k (List.mem_cons_of_mem _ hk)
    by_cases hv : isNil kv.2 = true
    · rw [putAll, List.foldl_cons, if_pos hv]
      exact ih htail h
    · rw [putAll_cons (by simpa using hv)]
      exact ih htail (put_isDict (hnew _ List.mem_cons_self) h)

theorem putAll_append (kvs xs ys : List (Janet × Janet)) : putAll kvs (xs ++ ys) = putAll (putAll kvs xs) ys :=
  List.foldl_append

/-- The last value of a key is the one that is found. -/
theorem find_putAll {key : Janet} (hkey : IsKeyword key) {new : List (Janet × Janet)}
    (hnew : ∀ k ∈ keys new, IsKeyword k) (hv : ∀ kv ∈ new, isNil kv.2 = false) :
    ∀ kvs, find key (putAll kvs new) = find key (new.reverse ++ kvs) := by
  induction new with
  | nil => exact fun _ => rfl
  | cons kv new ih =>
    intro kvs
    have htail := ih (fun k hk => hnew k (List.mem_cons_of_mem _ hk)) (fun x hx => hv x (List.mem_cons_of_mem _ hx))
    rw [putAll_cons (hv kv List.mem_cons_self), htail, List.reverse_cons, List.append_assoc]
    exact find_append (find_put hkey (hnew _ List.mem_cons_self) kvs)

/-- Pairs with new keys are added as they come. -/
theorem putAll_fresh {new : List (Janet × Janet)} (hv : ∀ kv ∈ new, isNil kv.2 = false) :
    ∀ {kvs : List (Janet × Janet)}, IsDict (kvs ++ new) → putAll kvs new = kvs ++ new := by
  induction new with
  | nil => exact fun _ => (List.append_nil _).symm
  | cons kv new ih =>
    intro kvs h
    have hfresh : kv.1 ∉ keys kvs := by
      have hnodup := h.nodup
      rw [keys, List.map_append, List.nodup_append] at hnodup
      exact fun hmem => hnodup.2.2 _ hmem _ List.mem_cons_self rfl
    have hkey := h.keywords kv.1 (List.mem_map_of_mem (by simp))
    rw [List.append_cons] at h ⊢
    rw [putAll_cons (hv kv List.mem_cons_self), put_fresh hkey hfresh]
    exact ih (fun kv' h' => hv kv' (List.mem_cons_of_mem _ h')) h

theorem putAll_nil {kvs : List (Janet × Janet)} (hv : ∀ kv ∈ kvs, isNil kv.2 = false) (h : IsDict kvs) :
    putAll [] kvs = kvs := putAll_fresh hv h

/-- Keys come from what is put. -/
theorem putAll_keys {new : List (Janet × Janet)} (hnew : ∀ k ∈ keys new, IsKeyword k) :
    ∀ {kvs : List (Janet × Janet)} {k : Janet}, k ∈ keys (putAll kvs new) → k ∈ keys kvs ∨ k ∈ keys new := by
  induction new with
  | nil => exact fun h => .inl h
  | cons kv new ih =>
    intro kvs k h
    have htail := fun k hk => hnew k (List.mem_cons_of_mem _ hk)
    by_cases hv : isNil kv.2 = true
    · rw [putAll, List.foldl_cons, if_pos hv] at h
      exact (ih htail h).imp_right (List.mem_cons_of_mem _)
    · rw [putAll_cons (by simpa using hv)] at h
      rcases ih htail h with h | h
      · rcases (put_keys (hnew _ List.mem_cons_self)).mp h with h | rfl
        · exact .inl h
        · exact .inr List.mem_cons_self
      · exact .inr (List.mem_cons_of_mem _ h)

/-! ### Merge and group -/

/-- Dictionaries with one pair each. -/
theorem merge_singles (kvs : List (Janet × Janet)) :
    merge (kvs.map fun kv => .struct [kv]) = .table (putAll [] kvs) := by
  refine congrArg Janet.table ?_
  rw [List.foldl_map, putAll]
  rfl

theorem elements_group (xs : List Janet) : elements (group xs) = xs := by
  cases xs <;> rfl

theorem isNil_default (x : Janet) (w : String) : isNil (default x (str w)) = false := by
  cases x <;> rfl

/-- The pair of a list that is there if it has anything. -/
def present (key : String) (xs : List Janet) : List (Janet × Janet) :=
  if xs.isEmpty then [] else [(kw key, .array xs)]

/-- A last pair whose value may be an empty group. -/
theorem literal_present (kvs : List (String × Janet)) (key : String) (h : (kvs.map Prod.fst ++ [key]).Nodup)
    (hv : ∀ kv ∈ kvs, isNil kv.2 = false) (xs : List Janet) :
    literal ((kvs.map fun kv => (kw kv.1, kv.2)) ++ [(kw key, group xs)]) =
      .struct ((kvs.map fun kv => (kw kv.1, kv.2)) ++ present key xs) := by
  have hkeys : keys (kvs.map fun kv => (kw kv.1, kv.2)) = (kvs.map Prod.fst).map kw := by
    rw [keys, List.map_map, List.map_map]
    rfl
  have hnodup := List.nodup_append.mp h
  have hvalues : ∀ kv ∈ kvs.map fun kv => (kw kv.1, kv.2), isNil kv.2 = false := by
    intro kv hkv
    obtain ⟨y, hy, rfl⟩ := List.mem_map.mp hkv
    exact hv y hy
  have hfresh : kw key ∉ keys (kvs.map fun kv => (kw kv.1, kv.2)) := by
    rw [hkeys]
    intro hk
    obtain ⟨w, hw, heq⟩ := List.mem_map.mp hk
    exact hnodup.2.2 w hw key (by simp) (kw_injective heq)
  have hput := putAll_nil hvalues (isDict_kw _ hnodup.1 hkeys)
  rw [literal, putAll_append, hput]
  cases xs with
  | nil => exact congrArg Janet.struct (List.append_nil _).symm
  | cons x xs =>
    rw [group, putAll_cons rfl, put_fresh (isKeyword_kw key) hfresh]
    rfl

end JanetSdbus.Introspect
