import Mathlib.Data.List.Perm.Basic
import JanetSdbus.Message.RoundTrip

/-! Spellings of a D-Bus value.

    Many Janet values stand for one D-Bus value; the decoder spells it one way. `Spells t v i` says
    that `v` is that spelling of the item `i`: it stands for `i` (`Spells.denote`), the decoder
    returns nothing else that can be appended again (`decode_spells`), and for spellings Janet's
    structural equality is sameness of values (`deepEq_of_same`, `same_of_deepEq`). Arrays of bytes
    have no spelling: the decoder makes an array of numbers of them, which the encoder refuses. -/

namespace JanetSdbus.Message
open DBus

/-! ### Structural equality -/

/-- Takes out the first pair whose key satisfies `p`. -/
def takeKey (p : Janet → Bool) : List (Janet × Janet) → Option (Janet × List (Janet × Janet))
  | [] => none
  | (k, v) :: kvs => if p k then some (v, kvs) else (takeKey p kvs).map fun r => (r.1, (k, v) :: r.2)

mutual
/-- `(not (deep-not= x y))`: values of one Janet type, arrays and tuples element by element,
    dictionaries pair by pair, anything else by `=`. NaN is not equal to itself. -/
def deepEq : Janet → Janet → Bool
  | .tuple xs, .tuple ys => deepEqAll xs ys
  | .array xs, .array ys => deepEqAll xs ys
  | .struct xs, .struct ys => deepEqEntries xs ys
  | .table xs, .table ys => deepEqEntries xs ys
  | .buffer a, .buffer b => a = b
  | .number .nan, _ => false
  | x, y => x.isAtom && x.sameAtom y
def deepEqAll : List Janet → List Janet → Bool
  | [], [] => true
  | x :: xs, y :: ys => deepEq x y && deepEqAll xs ys
  | _, _ => false
def deepEqEntries : List (Janet × Janet) → List (Janet × Janet) → Bool
  | [], ys => ys.isEmpty
  | (k, v) :: xs, ys =>
    match takeKey (fun k' => deepEq k k') ys with
    | some (w, zs) => deepEq v w && deepEqEntries xs zs
    | none => false
end

theorem takeKey_perm {p : Janet → Bool} : ∀ {kvs rest : List (Janet × Janet)} {v : Janet},
    takeKey p kvs = some (v, rest) → ∃ k, p k = true ∧ kvs.Perm ((k, v) :: rest)
  | [], _, _, h => by simp [takeKey] at h
  | (k, w) :: kvs, rest, v, h => by
    rw [takeKey] at h
    split at h
    · next hk =>
      obtain ⟨rfl, rfl⟩ := Prod.mk.inj (Option.some.inj h)
      exact ⟨k, hk, .refl _⟩
    · obtain ⟨⟨u, rest'⟩, hr, heq⟩ := Option.map_eq_some_iff.mp h
      obtain ⟨rfl, rfl⟩ := Prod.mk.inj heq
      obtain ⟨k', hk', hperm⟩ := takeKey_perm hr
      exact ⟨k', hk', (hperm.cons (k, w)).trans (.swap _ _ _)⟩

theorem takeKey_none {p : Janet → Bool} : ∀ {kvs : List (Janet × Janet)}, takeKey p kvs = none →
    ∀ kv ∈ kvs, p kv.1 = false
  | [], _, _, hkv => by simp at hkv
  | (k, w) :: kvs, h, kv, hkv => by
    rw [takeKey] at h
    split at h
    · simp at h
    · next hk =>
      rcases List.mem_cons.mp hkv with rfl | hkv
      · simpa using hk
      · exact takeKey_none (by simpa using h) kv hkv

/-- On the left an atom other than NaN is equal to itself only. -/
theorem deepEq_atom {x y : Janet} (hx : x.isAtom = true) (hnan : x ≠ .number .nan) :
    deepEq x y = true ↔ x = y := by
  have heq : deepEq x y = (x.isAtom && x.sameAtom y) := by
    cases x with
    | number d =>
      cases d with
      | nan => exact absurd rfl hnan
      | _ => rw [deepEq] <;> simp
    | buffer | tuple | array | struct | table => simp [Janet.isAtom] at hx
    | _ => rw [deepEq] <;> simp
  rw [heq, hx, Bool.true_and]
  exact sameAtom_iff hx

/-- So it is on the right. -/
theorem eq_of_deepEq {x y : Janet} (hy : y.isAtom = true) (h : deepEq x y = true) : x = y := by
  have hx : x.isAtom = true := by
    cases x with
    | buffer | tuple | array | struct | table => cases y <;> simp_all [Janet.isAtom, deepEq]
    | _ => rfl
  have hnan : x ≠ .number .nan := by
    rintro rfl
    simp [deepEq] at h
  exact (deepEq_atom hx hnan).mp h

/-- Equal dictionaries have equal pairs, in some order. -/
theorem deepEqEntries_perm : ∀ {xs ys : List (Janet × Janet)}, deepEqEntries xs ys = true →
    ∃ zs, ys.Perm zs ∧ List.Forall₂ (fun a b => deepEq a.1 b.1 = true ∧ deepEq a.2 b.2 = true) xs zs
  | [], ys, h => by
    rw [deepEqEntries, List.isEmpty_iff] at h
    exact ⟨[], by rw [h], .nil⟩
  | (k, v) :: xs, ys, h => by
    rw [deepEqEntries] at h
    split at h
    · next w rest hw =>
      rw [Bool.and_eq_true] at h
      obtain ⟨k', hk', hperm⟩ := takeKey_perm hw
      obtain ⟨zs, hzs, hall⟩ := deepEqEntries_perm h.2
      exact ⟨(k', w) :: zs, hperm.trans (hzs.cons _), .cons ⟨hk', h.1⟩ hall⟩
    · simp at h

/-- Dictionaries with equal pairs are equal, if the keys are distinct atoms. -/
theorem deepEqEntries_of_perm : ∀ {xs ys zs : List (Janet × Janet)}, ys.Perm zs →
    List.Forall₂ (fun a b => a.1 = b.1 ∧ deepEq a.2 b.2 = true) xs zs → (ys.map Prod.fst).Nodup →
    (∀ kv ∈ xs, kv.1.isAtom = true ∧ kv.1 ≠ .number .nan) → deepEqEntries xs ys = true
  | [], ys, zs, hperm, hall, _, _ => by
    cases hall with
    | nil => rw [deepEqEntries, hperm.eq_nil]; rfl
  | (k, v) :: xs, ys, zs, hperm, hall, hnodup, hatoms => by
    cases hall with
    | @cons _ b _ zs' hb hall =>
      obtain ⟨hk, hv⟩ := hb
      obtain ⟨hatom, hnan⟩ := hatoms (k, v) (by simp)
      have hself : deepEq k b.1 = true := (deepEq_atom hatom hnan).mpr hk
      rw [deepEqEntries]
      cases htake : takeKey (fun k' => deepEq k k') ys with
      | none =>
        have hno := takeKey_none htake b (hperm.mem_iff.mpr (by simp))
        rw [hself] at hno
        exact absurd hno (by simp)
      | some r =>
        obtain ⟨w, rest⟩ := r
        obtain ⟨k', hk', hrest⟩ := takeKey_perm htake
        obtain rfl : k = k' := (deepEq_atom hatom hnan).mp hk'
        -- the keys are distinct, so the pair that was found is the one that belongs to `k`
        have hkeys := (hrest.map Prod.fst).nodup_iff.mp hnodup
        rw [List.map_cons, List.nodup_cons] at hkeys
        have hmem : b ∈ (k, w) :: rest := hrest.mem_iff.mp (hperm.mem_iff.mpr (by simp))
        have hb : b = (k, w) := by
          rcases List.mem_cons.mp hmem with h | h
          · exact h
          · have hin : b.1 ∈ rest.map Prod.fst := List.mem_map_of_mem h
            exact absurd (hk ▸ hin) hkeys.1
        subst hb
        have hperm' : rest.Perm zs' := (hrest.symm.trans hperm).cons_inv
        simp only [Bool.and_eq_true]
        exact ⟨hv, deepEqEntries_of_perm hperm' hall hkeys.2 fun kv hkv =>
          hatoms kv (List.mem_cons_of_mem _ hkv)⟩

/-! ### Spellings -/

/-- How the decoder spells a basic value. -/
def spell : Basic → Janet
  | .fd n => .stream false n
  | x => ofBasic x

mutual
/-- `v` spells the item `i` of type `t`. -/
inductive Spells : Ty → Janet → Item → Prop where
  | basic (x : Basic) : Spells (.basic x.code) (spell x) (.basic x)
  | variant (t : Ty) (bs : List UInt8) (v : Janet) (i : Item) : chars bs = t.render → Spells t v i →
      Spells .variant (.tuple [.string bs, v]) (.container .variant t.render [i])
  | array (t : Ty) (vs : List Janet) (is : List Item) : isByte t = false → SpellsEach t vs is →
      Spells (.array t) (.array vs) (.container .array t.render is)
  | dict (k : Code) (t : Ty) (kvs : List (Janet × Janet)) (es : List Item) :
      SpellsEntries k t kvs es → DistinctKeys kvs →
      Spells (.dict k t) (.table kvs) (.container .array (renderEntry k t) es)
  | struct (t : Ty) (ts : List Ty) (vs : List Janet) (is : List Item) :
      SpellsFields (t :: ts) vs is →
      Spells (.struct t ts) (.tuple vs) (.container .struct (renderAll (t :: ts)) is)
inductive SpellsEach : Ty → List Janet → List Item → Prop where
  | nil (t : Ty) : SpellsEach t [] []
  | cons (t : Ty) (v : Janet) (vs : List Janet) (i : Item) (is : List Item) : Spells t v i →
      SpellsEach t vs is → SpellsEach t (v :: vs) (i :: is)
inductive SpellsEntries : Code → Ty → List (Janet × Janet) → List Item → Prop where
  | nil (k : Code) (t : Ty) : SpellsEntries k t [] []
  | cons (x : Basic) (t : Ty) (v : Janet) (i : Item) (kvs : List (Janet × Janet)) (es : List Item) :
      Spells t v i → SpellsEntries x.code t kvs es →
      SpellsEntries x.code t ((spell x, v) :: kvs) (entryItem x.code t x i :: es)
inductive SpellsFields : List Ty → List Janet → List Item → Prop where
  | nil : SpellsFields [] [] []
  | cons (t : Ty) (ts : List Ty) (v : Janet) (vs : List Janet) (i : Item) (is : List Item) :
      Spells t v i → SpellsFields ts vs is → SpellsFields (t :: ts) (v :: vs) (i :: is)
end

section spelling
variable {rt : Runtime}

theorem spell_isAtom (x : Basic) : (spell x).isAtom = true := by cases x <;> rfl

theorem integer_intNumber {lo hi n : ℤ} (hlo : lo ≤ n) (hhi : n ≤ hi) :
    (intNumber n).integer lo hi = some n := by
  rw [intNumber, Janet.integer, if_pos ⟨Rat.den_intCast n, by rwa [Rat.num_intCast], by rwa [Rat.num_intCast]⟩,
    Rat.num_intCast]

/-- A basic value is accepted back from its spelling. -/
theorem convert_spell (x : Basic) : convert rt x.code (spell x) = some x := by
  cases x with
  | byte b =>
    have hlt := b.toNat_lt
    have hint : (intNumber b.toNat).integer 0 255 = some (b.toNat : ℤ) :=
      integer_intNumber (by omega) (by omega)
    simp [Basic.code, convert, spell, ofBasic, checkuint8, hint]
  | int16 n =>
    have hlo := n.le_toInt
    have hhi := n.toInt_lt
    have hint : (intNumber n.toInt).integer (-32768) 32767 = some n.toInt :=
      integer_intNumber (by omega) (by omega)
    simp [Basic.code, convert, spell, ofBasic, janetCheckint16, hint]
  | int32 n =>
    have hlo := n.le_toInt
    have hhi := n.toInt_lt
    have hint : (intNumber n.toInt).integer (-2147483648) 2147483647 = some n.toInt :=
      integer_intNumber (by omega) (by omega)
    simp [Basic.code, convert, spell, ofBasic, janetCheckint, hint]
  | uint16 n =>
    have hhi := n.isLt
    have hint : (intNumber n.toNat).integer 0 65535 = some (n.toNat : ℤ) :=
      integer_intNumber (by omega) (by omega)
    simp [Basic.code, convert, spell, ofBasic, janetCheckuint16, hint]
  | uint32 n =>
    have hhi := n.isLt
    have hint : (intNumber n.toNat).integer 0 4294967295 = some (n.toNat : ℤ) :=
      integer_intNumber (by omega) (by omega)
    simp [Basic.code, convert, spell, ofBasic, janetCheckuint, hint]
  | string s | objectPath s | signature s =>
    have hnul : janetGetcbytes s.bytes = some s := dif_pos s.nul_free
    simp [Basic.code, convert, spell, ofBasic, Janet.cstring, hnul]
  | _ => rfl

theorem spell_inj {x y : Basic} (hcode : x.code = y.code) (h : spell x = spell y) : x = y := by
  have hx : convert silentRuntime x.code (spell x) = some x := convert_spell x
  rw [hcode, h, convert_spell] at hx
  exact (Option.some.inj hx).symm

mutual
/-- The characters of a signature are bytes. -/
theorem ascii_render : ∀ t : Ty, ∀ c ∈ t.render, Char.ofUInt8 c.toUInt8 = c
  | .basic k, c, h => by
    rw [Ty.render, List.mem_singleton] at h
    rw [h]
    cases k <;> rfl
  | .variant, c, h => by
    rw [Ty.render, List.mem_singleton] at h
    rw [h]
    rfl
  | .array t, c, h => by
    rw [Ty.render] at h
    rcases List.mem_cons.mp h with rfl | h
    · rfl
    · exact ascii_render t c h
  | .dict k t, c, h => by
    simp only [Ty.render, List.mem_cons, List.mem_append, List.not_mem_nil, or_false] at h
    rcases h with rfl | rfl | rfl | h | rfl
    · rfl
    · rfl
    · cases k <;> rfl
    · exact ascii_render t c h
    · rfl
  | .struct t ts, c, h => by
    simp only [Ty.render, List.mem_cons, List.mem_append, List.not_mem_nil, or_false] at h
    rcases h with rfl | h | h | rfl
    · rfl
    · exact ascii_render t c h
    · exact ascii_renderAll ts c h
    · rfl
theorem ascii_renderAll : ∀ ts : List Ty, ∀ c ∈ renderAll ts, Char.ofUInt8 c.toUInt8 = c
  | [], c, h => by simp [renderAll] at h
  | t :: ts, c, h => by
    rw [renderAll] at h
    rcases List.mem_append.mp h with h | h
    · exact ascii_render t c h
    · exact ascii_renderAll ts c h
end

theorem chars_render (t : Ty) : chars (t.render.map Char.toUInt8) = t.render := by
  rw [chars, List.map_map]
  exact (List.map_congr_left fun c hc => ascii_render t c hc).trans (List.map_id _)

theorem parse_chars {bs : List UInt8} {t : Ty} (h : chars bs = t.render) : parse (chars bs) = some t := by
  rw [h, parse_render]

mutual
/-- A spelling stands for its item. -/
theorem Spells.denote : ∀ {t : Ty} {v : Janet} {i : Item}, Spells t v i → Message.denote rt t v = some i
  | _, _, _, .basic x => by rw [Message.denote, convert_spell, Option.map_some]
  | _, _, _, .variant t bs v i hbs h => by
    rw [denote_variant_eq, parse_chars hbs, Option.bind_some, h.denote, Option.map_some, hbs]
  | _, _, _, .array t vs is ht h => by
    rw [denote_array ht, janetIndexedView, Option.bind_some, h.denoteEach, Option.map_some]
  | _, _, _, .dict k t kvs es h _ => by
    rw [denote_dict, janetDictionaryView, Option.bind_some, h.denoteEntries, Option.map_some]
  | _, _, _, .struct t ts vs is h => by
    rw [denote_struct, janetIndexedView, Option.bind_some, h.denoteFields, Option.map_some]
theorem SpellsEach.denoteEach : ∀ {t : Ty} {vs : List Janet} {is : List Item}, SpellsEach t vs is →
    Message.denoteEach rt t vs = some is
  | _, _, _, .nil _ => by rw [Message.denoteEach]
  | _, _, _, .cons t v vs i is h hs => by
    rw [Message.denoteEach, h.denote, Option.bind_some, hs.denoteEach, Option.map_some]
theorem SpellsEntries.denoteEntries : ∀ {k : Code} {t : Ty} {kvs : List (Janet × Janet)}
    {es : List Item}, SpellsEntries k t kvs es → Message.denoteEntries rt k t kvs = some es
  | _, _, _, _, .nil _ _ => by rw [Message.denoteEntries]
  | _, _, _, _, .cons x t v i kvs es h hs => by
    rw [Message.denoteEntries, convert_spell, Option.bind_some, h.denote, Option.bind_some,
      hs.denoteEntries, Option.map_some]
theorem SpellsFields.denoteFields : ∀ {ts : List Ty} {vs : List Janet} {is : List Item},
    SpellsFields ts vs is → Message.denoteFields rt ts vs = some is
  | _, _, _, .nil => by rw [Message.denoteFields]
  | _, _, _, .cons t ts v vs i is h hs => by
    rw [Message.denoteFields, h.denote, Option.bind_some, hs.denoteFields, Option.map_some]
end

/-! ### What the decoder spells -/

/-- What a descriptor is copied to. -/
def copied (dup : ℤ → Except String ℤ) : Basic → Basic
  | .fd n =>
    match dup n with
    | .ok copy => .fd copy
    | .error _ => .fd n
  | x => x

theorem basicValue_spell {dup : ℤ → Except String ℤ} {x : Basic} (h : readable dup x = true) :
    basicValue dup x = spell (copied dup x) ∧ (copied dup x).code = x.code := by
  cases x with
  | fd n =>
    rw [readable] at h
    rw [basicValue, copied]
    cases hn : dup n with
    | ok copy => exact ⟨rfl, rfl⟩
    | error msg => simp [hn, Except.isOk, Except.toBool] at h
  | _ => exact ⟨rfl, rfl⟩

section tables
variable {tb : Tables} {dup : ℤ → Except String ℤ}

variable (tb) in
/-- A table keeps its keys distinct, and has no pairs but those that were put into it. -/
theorem put_inv {P : Janet × Janet → Prop} {tbl : List (Janet × Janet)} {key value : Janet}
    (hatom : key.isAtom = true) (hkey : key ≠ .nil) (hvalue : value ≠ .nil) (hdistinct : DistinctKeys tbl)
    (hall : ∀ kv ∈ tbl, P kv) (hnew : P (key, value)) :
    DistinctKeys (tb.put tbl key value) ∧ ∀ kv ∈ tb.put tbl key value, P kv := by
  -- the new pairs, up to their order
  suffices hperm : tb.put tbl key value = tbl ∨ ∃ rest, (tb.put tbl key value).Perm ((key, value) :: rest) ∧
      DistinctKeys ((key, value) :: rest) ∧ ∀ kv ∈ rest, kv ∈ tbl by
    rcases hperm with heq | ⟨rest, hperm, hkeys, hrest⟩
    · rw [heq]
      exact ⟨hdistinct, hall⟩
    · refine ⟨⟨(hperm.map Prod.fst).nodup_iff.mpr hkeys.1, fun kv hkv => hkeys.2 kv (hperm.mem_iff.mp hkv)⟩,
        fun kv hkv => ?_⟩
      rcases List.mem_cons.mp (hperm.mem_iff.mp hkv) with rfl | hkv
      · exact hnew
      · exact hall kv (hrest kv hkv)
  by_cases hnan : key = .number .nan
  · rw [hnan]
    exact .inl (tb.put_nan tbl value)
  by_cases hin : ∃ old, (key, old) ∈ tbl
  · obtain ⟨old, hold⟩ := hin
    obtain ⟨rest, hperm⟩ : ∃ rest, tbl.Perm ((key, old) :: rest) := by
      obtain ⟨l, r, rfl⟩ := List.append_of_mem hold
      exact ⟨l ++ r, List.perm_middle⟩
    refine .inr ⟨rest, tb.put_old tbl rest key old value hatom hnan hvalue hdistinct.1 hperm, ⟨?_, ?_⟩,
      fun kv hkv => hperm.mem_iff.mpr (List.mem_cons_of_mem _ hkv)⟩
    · exact (hperm.map Prod.fst).nodup_iff.mp hdistinct.1
    · intro kv hkv
      rcases List.mem_cons.mp hkv with rfl | hkv
      · exact hnan
      · exact hdistinct.2 kv (hperm.mem_iff.mpr (List.mem_cons_of_mem _ hkv))
  · have hne : ∀ kv ∈ tbl, kv.1 ≠ key := fun kv hkv heq => hin ⟨kv.2, by rw [← heq]; exact hkv⟩
    refine .inr ⟨tbl, tb.put_new tbl key value hatom hkey hnan hvalue hne, ⟨?_, ?_⟩, fun _ h => h⟩
    · rw [List.map_cons, List.nodup_cons]
      refine ⟨fun hmem => ?_, hdistinct.1⟩
      obtain ⟨kv, hkv, heq⟩ := List.mem_map.mp hmem
      exact hne kv hkv heq
    · intro kv hkv
      rcases List.mem_cons.mp hkv with rfl | hkv
      · exact hnan
      · exact hdistinct.2 kv hkv

/-- So does the table that entries decode to. -/
theorem decodeEntries_inv {P : Janet × Janet → Prop} {k : Code} {t : Ty} {es : List Item}
    {tbl : List (Janet × Janet)} (hes : Item.EntriesHaveTy k t es)
    (hread : validItems (readable dup) es = true)
    (hP : ∀ x i, entryItem k t x i ∈ es → x.code = k → readable dup x = true →
      P (basicValue dup x, decode tb dup i))
    (hdistinct : DistinctKeys tbl) (hall : ∀ kv ∈ tbl, P kv) :
    DistinctKeys (decodeEntries tb dup tbl es) ∧ ∀ kv ∈ decodeEntries tb dup tbl es, P kv := by
  induction es generalizing tbl with
  | nil =>
    rw [decodeEntries]
    exact ⟨hdistinct, hall⟩
  | cons e es ih =>
    cases hes with
    | cons x _ i _ _ hes =>
      rw [validItems, Bool.and_eq_true] at hread
      have hentry := hread.1
      simp only [entryItem, validItem, validItems, Bool.and_eq_true] at hentry
      rw [entryItem, decodeEntries]
      obtain ⟨hdistinct', hall'⟩ := put_inv tb (basicValue_isAtom dup x) (basicValue_ne_nil hentry.1)
        (decode_ne_nil tb hentry.2.1) hdistinct hall (hP x i (by simp) rfl hentry.1)
      exact ih hes hread.2 (fun y j hj => hP y j (List.mem_cons_of_mem _ hj)) hdistinct' hall'

end tables

theorem spellsEntries_of_denote {k : Code} {t : Ty} : ∀ {kvs : List (Janet × Janet)} {es : List Item},
    (∀ kv ∈ kvs, (∃ x : Basic, kv.1 = spell x ∧ x.code = k) ∧
      ∀ j, denote rt t kv.2 = some j → Spells t kv.2 j) →
    denoteEntries rt k t kvs = some es → SpellsEntries k t kvs es
  | [], es, _, h => by
    rw [denoteEntries] at h
    obtain rfl := Option.some.inj h
    exact .nil k t
  | (key, v) :: kvs, es, hall, h => by
    obtain ⟨⟨x, hx, hcode⟩, hv⟩ := hall (key, v) (by simp)
    subst hcode
    obtain rfl : key = spell x := hx
    rw [denoteEntries, convert_spell, Option.bind_some] at h
    obtain ⟨i, hi, h⟩ := Option.bind_eq_some_iff.mp h
    obtain ⟨fs, hfs, rfl⟩ := Option.map_eq_some_iff.mp h
    exact .cons x t v i kvs fs (hv i hi)
      (spellsEntries_of_denote (fun kv hkv => hall kv (List.mem_cons_of_mem _ hkv)) hfs)

section decode
variable {tb : Tables} {dup : ℤ → Except String ℤ}

mutual
/-- What the decoder returns is a spelling if it stands for anything. -/
theorem decode_spells : ∀ {t : Ty} {i : Item}, Item.HasTy t i → validItem (readable dup) i = true →
    ∀ j, denote rt t (decode tb dup i) = some j → Spells t (decode tb dup i) j
  | _, _, .basic x, hread, j, h => by
    rw [validItem] at hread
    obtain ⟨hspell, hcode⟩ := basicValue_spell hread
    rw [decode, hspell, ← hcode, denote, convert_spell, Option.map_some] at h
    rw [decode, hspell, ← hcode, ← Option.some.inj h]
    exact .basic _
  | _, _, .variant t i hi, hread, j, h => by
    rw [validItem, validItems, validItems, Bool.and_true] at hread
    rw [decode, decodeAll, decodeAll] at h ⊢
    obtain ⟨bs, v, u, j', heq, hbs, hj', rfl⟩ := denote_variant h
    simp only [Janet.tuple.injEq, List.cons.injEq, and_true] at heq
    obtain ⟨hsig, rfl⟩ := heq
    have hback : chars bs = t.render := by
      rw [signatureString] at hsig
      have hbytes : bs = t.render.map Char.toUInt8 := (Janet.string.inj hsig).symm
      rw [hbytes]
      exact chars_render t
    have hu : u = t := render_inj (hbs.symm.trans hback)
    rw [hu] at hj' ⊢
    rw [hsig]
    exact .variant t bs _ j' hback (decode_spells hi hread j' hj')
  | _, _, .array t is his, hread, j, h => by
    rw [validItem] at hread
    have hhead := t.render_no_entry
    rw [decode, if_neg hhead] at h ⊢
    cases ht : isByte t with
    | true =>
      -- an array is no bytes
      rw [denote_bytes ht] at h
      exact absurd h (by simp [janetBytesView])
    | false =>
      rw [denote_array ht, janetIndexedView, Option.bind_some] at h
      obtain ⟨js, hjs, rfl⟩ := Option.map_eq_some_iff.mp h
      exact .array t _ js ht (decodeEach_spells his hread js hjs)
  | _, _, .dict k t es hes, hread, j, h => by
    rw [validItem] at hread
    have hhead : (renderEntry k t).head? = some '{' := rfl
    rw [decode, if_pos hhead] at h ⊢
    rw [denote_dict, janetDictionaryView, Option.bind_some] at h
    obtain ⟨fs, hfs, rfl⟩ := Option.map_eq_some_iff.mp h
    obtain ⟨hdistinct, hall⟩ := decodeEntries_inv (P := fun kv => (∃ x : Basic, kv.1 = spell x ∧ x.code = k) ∧
        ∀ j, denote rt t kv.2 = some j → Spells t kv.2 j) hes hread
      (fun x i hmem hcode hx => ⟨⟨copied dup x, (basicValue_spell hx).1,
        (basicValue_spell hx).2.trans hcode⟩, decodeEntries_spell hes hread x i hmem⟩)
      (⟨List.nodup_nil, fun kv hkv => absurd hkv (by simp)⟩ : DistinctKeys []) (fun kv hkv => absurd hkv (by simp))
    exact .dict k t _ fs (spellsEntries_of_denote hall hfs) hdistinct
  | _, _, .struct t ts is his, hread, j, h => by
    rw [validItem] at hread
    rw [decode] at h ⊢
    rw [denote_struct, janetIndexedView, Option.bind_some] at h
    obtain ⟨js, hjs, rfl⟩ := Option.map_eq_some_iff.mp h
    exact .struct t ts _ js (decodeFields_spells his hread js hjs)
theorem decodeEach_spells : ∀ {t : Ty} {is : List Item}, Item.EachHasTy t is →
    validItems (readable dup) is = true → ∀ js, denoteEach rt t (decodeAll tb dup is) = some js →
    SpellsEach t (decodeAll tb dup is) js
  | _, _, .nil t, _, js, h => by
    rw [decodeAll, denoteEach] at h
    rw [decodeAll, ← Option.some.inj h]
    exact .nil t
  | _, _, .cons t i is hi his, hread, js, h => by
    rw [validItems, Bool.and_eq_true] at hread
    rw [decodeAll, denoteEach] at h
    obtain ⟨j, hj, h⟩ := Option.bind_eq_some_iff.mp h
    obtain ⟨ks, hks, rfl⟩ := Option.map_eq_some_iff.mp h
    rw [decodeAll]
    exact .cons t _ _ j ks (decode_spells hi hread.1 j hj) (decodeEach_spells his hread.2 ks hks)
theorem decodeEntries_spell : ∀ {k : Code} {t : Ty} {es : List Item}, Item.EntriesHaveTy k t es →
    validItems (readable dup) es = true → ∀ x i, entryItem k t x i ∈ es →
    ∀ j, denote rt t (decode tb dup i) = some j → Spells t (decode tb dup i) j
  | _, _, _, .nil _ _, _, _, _, hmem, _, _ => by simp at hmem
  | _, _, _, .cons y t i' es hi hes, hread, x, i, hmem, j, h => by
    rw [validItems, Bool.and_eq_true] at hread
    have hentry := hread.1
    simp only [entryItem, validItem, validItems, Bool.and_eq_true] at hentry
    rcases List.mem_cons.mp hmem with heq | hmem
    · simp only [entryItem, Item.container.injEq, List.cons.injEq, and_true] at heq
      obtain ⟨_, _, _, hi'⟩ := heq
      rw [hi'] at h ⊢
      exact decode_spells hi hentry.2.1 j h
    · exact decodeEntries_spell hes hread.2 x i hmem j h
theorem decodeFields_spells : ∀ {ts : List Ty} {is : List Item}, Item.HaveTys ts is →
    validItems (readable dup) is = true → ∀ js, denoteFields rt ts (decodeAll tb dup is) = some js →
    SpellsFields ts (decodeAll tb dup is) js
  | _, _, .nil, _, js, h => by
    rw [decodeAll, denoteFields] at h
    rw [decodeAll, ← Option.some.inj h]
    exact .nil
  | _, _, .cons t ts i is hi his, hread, js, h => by
    rw [validItems, Bool.and_eq_true] at hread
    rw [decodeAll, denoteFields] at h
    obtain ⟨j, hj, h⟩ := Option.bind_eq_some_iff.mp h
    obtain ⟨ks, hks, rfl⟩ := Option.map_eq_some_iff.mp h
    rw [decodeAll]
    exact .cons t ts _ _ j ks (decode_spells hi hread.1 j hj) (decodeFields_spells his hread.2 ks hks)
end

end decode

/-! ### Sameness -/

theorem allSame_iff : ∀ {is js : List Item}, Item.AllSame is js ↔ List.Forall₂ Item.Same is js
  | [], [] => iff_of_true .nil .nil
  | [], _ :: _ => iff_of_false (fun h => by cases h) (fun h => by cases h)
  | _ :: _, [] => iff_of_false (fun h => by cases h) (fun h => by cases h)
  | i :: is, j :: js => by
    constructor
    · intro h
      cases h with
      | cons _ _ _ _ hi his => exact .cons hi (allSame_iff.mp his)
    · intro h
      cases h with
      | cons hi his => exact .cons i j is js hi (allSame_iff.mpr his)

/-- What is the same as a container. -/
theorem same_container {c : Container} {s : List Char} {is : List Item} {b : Item}
    (h : Item.Same (.container c s is) b) : ∃ js ks, b = .container c s js ∧ is.Perm ks ∧
      List.Forall₂ Item.Same ks js ∧ (s.head? ≠ some '{' → ks = is) := by
  generalize ha : Item.container c s is = a at h
  cases h with
  | basic x => simp at ha
  | container c' s' is' js hall =>
    obtain ⟨rfl, rfl, rfl⟩ := Item.container.inj ha
    exact ⟨js, is, rfl, .refl _, allSame_iff.mp hall, fun _ => rfl⟩
  | entries s' is' ks js hperm hall =>
    obtain ⟨rfl, rfl, rfl⟩ := Item.container.inj ha
    exact ⟨js, ks, rfl, hperm, allSame_iff.mp hall, fun h => absurd rfl h⟩

def notNan (x : Basic) : Bool := x ≠ .double .nan

theorem spell_ne_nan {x : Basic} (h : notNan x = true) : spell x ≠ .number .nan := by
  cases x with
  | double d =>
    intro heq
    simp only [spell, ofBasic, Janet.number.injEq] at heq
    simp [notNan, heq] at h
  | _ => simp [spell, ofBasic, intNumber]

theorem chars_inj {bs cs : List UInt8} (h : chars bs = chars cs) : bs = cs := by
  have hbs := signatureString_chars (rfl : chars bs = chars bs)
  rw [h, signatureString_chars rfl] at hbs
  exact (Janet.string.inj hbs).symm

/-- Entry by entry. -/
theorem spellsEntries_iff {k : Code} {t : Ty} : ∀ {kvs : List (Janet × Janet)} {es : List Item},
    SpellsEntries k t kvs es ↔ List.Forall₂ (fun kv e => ∃ x i, kv.1 = spell x ∧ x.code = k ∧
      e = entryItem k t x i ∧ Spells t kv.2 i) kvs es
  | [], [] => iff_of_true (.nil k t) .nil
  | [], _ :: _ => iff_of_false (fun h => by cases h) (fun h => by cases h)
  | _ :: _, [] => iff_of_false (fun h => by cases h) (fun h => by cases h)
  | (key, v) :: kvs, e :: es => by
    constructor
    · intro h
      cases h with
      | cons x _ _ i _ _ hi hes => exact .cons ⟨x, i, rfl, rfl, rfl, hi⟩ (spellsEntries_iff.mp hes)
    · intro h
      cases h with
      | cons he hes =>
        obtain ⟨x, i, hkey, rfl, rfl, hi⟩ := he
        obtain rfl : key = spell x := hkey
        exact .cons x t v i kvs es hi (spellsEntries_iff.mpr hes)

theorem spells_basic {c : Code} {v : Janet} {i : Item} (h : Spells (.basic c) v i) :
    ∃ x : Basic, x.code = c ∧ v = spell x ∧ i = .basic x := by
  generalize ht : Ty.basic c = t at h
  cases h with
  | basic x => exact ⟨x, (Ty.basic.inj ht).symm, rfl, rfl⟩
  | _ => simp at ht

theorem spellsEntries_atoms {k : Code} {t : Ty} : ∀ {kvs : List (Janet × Janet)} {es : List Item},
    SpellsEntries k t kvs es → ∀ kv ∈ kvs, kv.1.isAtom = true
  | _, _, .nil _ _, _, h => by simp at h
  | _, _, .cons x t v i kvs es _ hes, kv, h => by
    rcases List.mem_cons.mp h with rfl | h
    · exact spell_isAtom x
    · exact spellsEntries_atoms hes kv h

theorem same_basic {x : Basic} {j : Item} (h : Item.Same (.basic x) j) : j = .basic x := by
  cases h with
  | basic => rfl

mutual
/-- Spellings of the same value are structurally equal, unless there is a NaN in it. -/
theorem deepEq_of_same : ∀ {t : Ty} {v : Janet} {i : Item}, Spells t v i → validItem notNan i = true →
    ∀ {w : Janet} {j : Item}, Spells t w j → Item.Same i j → deepEq v w = true
  | _, _, _, .basic x, hnan, w, j, hw, hsame => by
    rw [validItem] at hnan
    obtain ⟨y, _, rfl, rfl⟩ := spells_basic hw
    rw [Item.basic.inj (same_basic hsame)]
    exact (deepEq_atom (spell_isAtom x) (spell_ne_nan hnan)).mpr rfl
  | _, _, _, .variant t bs v i hbs h, hnan, w, j, hw, hsame => by
    rw [validItem, validItems, validItems, Bool.and_true] at hnan
    cases hw with
    | variant u cs w j hcs hw =>
      obtain ⟨js, ks, heq, hperm, hall, _⟩ := same_container hsame
      obtain ⟨_, hren, rfl⟩ := Item.container.inj heq
      have hu : u = t := render_inj hren
      rw [hu] at hw hcs
      rw [← List.singleton_perm.mp hperm] at hall
      cases hall with
      | cons hij _ =>
        rw [chars_inj (hbs.trans hcs.symm), deepEq, deepEqAll, deepEqAll, deepEqAll,
          (deepEq_atom rfl (by simp)).mpr rfl, deepEq_of_same h hnan hw hij]
        rfl
  | _, _, _, .array t vs is ht h, hnan, w, j, hw, hsame => by
    rw [validItem] at hnan
    cases hw with
    | array _ ws js _ hw =>
      obtain ⟨js', ks, heq, _, hall, hks⟩ := same_container hsame
      obtain ⟨_, _, rfl⟩ := Item.container.inj heq
      have hhead := t.render_no_entry
      rw [hks hhead] at hall
      rw [deepEq]
      exact deepEqEach_of_same h hnan hw hall
  | _, _, _, .dict k t kvs es h hkeys, hnan, w, j, hw, hsame => by
    rw [validItem] at hnan
    cases hw with
    | dict _ _ kvs' es' hw hkeys' =>
      obtain ⟨js, ks, heq, hperm, hall, _⟩ := same_container hsame
      obtain ⟨_, _, rfl⟩ := Item.container.inj heq
      -- the entries of the second dictionary, in the order of the first
      obtain ⟨m, hm, hmperm⟩ := List.perm_comp_forall₂ hperm hall
      obtain ⟨zs, hzs, hzperm⟩ := List.perm_comp_forall₂ hmperm (spellsEntries_iff.mp hw).flip
      rw [deepEq]
      exact deepEqEntries_of_perm hzperm.symm (deepEqPairs_of_same h hnan hm hzs) hkeys'.1
        fun kv hkv => ⟨spellsEntries_atoms h kv hkv, hkeys.2 kv hkv⟩
  | _, _, _, .struct t ts vs is h, hnan, w, j, hw, hsame => by
    rw [validItem] at hnan
    cases hw with
    | struct _ _ ws js hw =>
      obtain ⟨js', ks, heq, _, hall, hks⟩ := same_container hsame
      obtain ⟨_, _, rfl⟩ := Item.container.inj heq
      have hhead : (renderAll (t :: ts)).head? ≠ some '{' := by
        obtain ⟨c, s, hc, hne, _⟩ := t.render_head
        rw [renderAll, hc]
        exact fun h => hne (Option.some.inj h)
      rw [hks hhead] at hall
      rw [deepEq]
      exact deepEqFields_of_same h hnan hw hall
theorem deepEqEach_of_same : ∀ {t : Ty} {vs : List Janet} {is : List Item}, SpellsEach t vs is →
    validItems notNan is = true → ∀ {ws : List Janet} {js : List Item}, SpellsEach t ws js →
    List.Forall₂ Item.Same is js → deepEqAll vs ws = true
  | _, _, _, .nil _, _, _, _, hw, hall => by
    cases hall with
    | nil =>
      cases hw with
      | nil => rw [deepEqAll]
  | _, _, _, .cons t v vs i is h hs, hnan, ws, js, hw, hall => by
    rw [validItems, Bool.and_eq_true] at hnan
    cases hall with
    | cons hij his =>
      cases hw with
      | cons _ w ws j js hw hws =>
        rw [deepEqAll, deepEq_of_same h hnan.1 hw hij, deepEqEach_of_same hs hnan.2 hws his]
        rfl
theorem deepEqPairs_of_same : ∀ {k : Code} {t : Ty} {kvs : List (Janet × Janet)} {es : List Item},
    SpellsEntries k t kvs es → validItems notNan es = true → ∀ {m : List Item} {zs : List (Janet × Janet)},
    List.Forall₂ Item.Same es m → List.Forall₂ (fun e kv => ∃ x i, kv.1 = spell x ∧ x.code = k ∧
      e = entryItem k t x i ∧ Spells t kv.2 i) m zs →
    List.Forall₂ (fun a b => a.1 = b.1 ∧ deepEq a.2 b.2 = true) kvs zs
  | _, _, _, _, .nil _ _, _, _, _, hall, hzs => by
    cases hall with
    | nil =>
      cases hzs with
      | nil => exact .nil
  | _, _, _, _, .cons x t v i kvs es h hs, hnan, m, zs, hall, hzs => by
    rw [validItems, Bool.and_eq_true] at hnan
    have hentry := hnan.1
    simp only [entryItem, validItem, validItems, Bool.and_eq_true] at hentry
    cases hall with
    | cons he hall =>
      cases hzs with
      | cons hz hzs =>
        obtain ⟨y, j, hkey, _, rfl, hj⟩ := hz
        obtain ⟨js, ks, heq, _, hpair, hks⟩ := same_container he
        obtain ⟨_, _, rfl⟩ := Item.container.inj heq
        have hhead : (x.code.char :: t.render).head? ≠ some '{' := fun h =>
          x.code.char_ne.2.2.2.2.1 (Option.some.inj h)
        rw [hks hhead] at hpair
        cases hpair with
        | cons hxy hrest =>
          cases hrest with
          | cons hij _ =>
            refine .cons ⟨?_, deepEq_of_same h hentry.2.1 hj hij⟩ (deepEqPairs_of_same hs hnan.2 hall hzs)
            rw [hkey, Item.basic.inj (same_basic hxy)]
theorem deepEqFields_of_same : ∀ {ts : List Ty} {vs : List Janet} {is : List Item}, SpellsFields ts vs is →
    validItems notNan is = true → ∀ {ws : List Janet} {js : List Item}, SpellsFields ts ws js →
    List.Forall₂ Item.Same is js → deepEqAll vs ws = true
  | _, _, _, .nil, _, _, _, hw, hall => by
    cases hall with
    | nil =>
      cases hw with
      | nil => rw [deepEqAll]
  | _, _, _, .cons t ts v vs i is h hs, hnan, ws, js, hw, hall => by
    rw [validItems, Bool.and_eq_true] at hnan
    cases hall with
    | cons hij his =>
      cases hw with
      | cons _ _ w ws j js hw hws =>
        rw [deepEqAll, deepEq_of_same h hnan.1 hw hij, deepEqFields_of_same hs hnan.2 hws his]
        rfl
end

theorem deepEq_tuple {w : Janet} {vs : List Janet} (h : deepEq w (.tuple vs) = true) :
    ∃ ws, w = .tuple ws ∧ deepEqAll ws vs = true := by
  cases w with
  | tuple ws => exact ⟨ws, rfl, by rwa [deepEq] at h⟩
  | number d => cases d <;> simp [deepEq, Janet.sameAtom] at h
  | _ => simp [deepEq, Janet.sameAtom, Janet.isAtom] at h

theorem deepEq_array {w : Janet} {vs : List Janet} (h : deepEq w (.array vs) = true) :
    ∃ ws, w = .array ws ∧ deepEqAll ws vs = true := by
  cases w with
  | array ws => exact ⟨ws, rfl, by rwa [deepEq] at h⟩
  | number d => cases d <;> simp [deepEq, Janet.sameAtom] at h
  | _ => simp [deepEq, Janet.sameAtom, Janet.isAtom] at h

theorem deepEq_table {w : Janet} {kvs : List (Janet × Janet)} (h : deepEq w (.table kvs) = true) :
    ∃ ps, w = .table ps ∧ deepEqEntries ps kvs = true := by
  cases w with
  | table ps => exact ⟨ps, rfl, by rwa [deepEq] at h⟩
  | number d => cases d <;> simp [deepEq, Janet.sameAtom] at h
  | _ => simp [deepEq, Janet.sameAtom, Janet.isAtom] at h

theorem deepEqAll_cons {ws vs : List Janet} {v : Janet} (h : deepEqAll ws (v :: vs) = true) :
    ∃ u us, ws = u :: us ∧ deepEq u v = true ∧ deepEqAll us vs = true := by
  cases ws with
  | nil => simp [deepEqAll] at h
  | cons u us =>
    rw [deepEqAll, Bool.and_eq_true] at h
    exact ⟨u, us, rfl, h.1, h.2⟩

theorem deepEqAll_nil {ws : List Janet} (h : deepEqAll ws [] = true) : ws = [] := by
  cases ws with
  | nil => rfl
  | cons u us => simp [deepEqAll] at h

/-- What is equal to a value stands for the same item as the value. -/
def Matched (rt : Runtime) (t : Ty) (v : Janet) (i : Item) : Prop :=
  ∀ w, deepEq w v = true → ∃ j, denote rt t w = some j ∧ Item.Same j i

/-- Dictionaries that are equal pair by pair. -/
theorem denoteEntries_matched {k : Code} {t : Ty} : ∀ {ps zs : List (Janet × Janet)} {es : List Item},
    List.Forall₂ (fun a b => deepEq a.1 b.1 = true ∧ deepEq a.2 b.2 = true) ps zs →
    List.Forall₂ (fun kv e => ∃ x i, kv.1 = spell x ∧ x.code = k ∧ e = entryItem k t x i ∧
      Matched rt t kv.2 i) zs es →
    ∃ fs, denoteEntries rt k t ps = some fs ∧ List.Forall₂ Item.Same fs es
  | _, _, _, .nil, .nil => ⟨[], by rw [denoteEntries], .nil⟩
  | (key, w) :: ps, (key', v) :: zs, _, .cons hkv hps, .cons he hes => by
    obtain ⟨x, i, hkey, hcode, rfl, hmatch⟩ := he
    obtain rfl : key' = spell x := hkey
    obtain rfl : key = spell x := eq_of_deepEq (spell_isAtom x) hkv.1
    obtain ⟨j, hj, hsame⟩ := hmatch w hkv.2
    obtain ⟨fs, hfs, hall⟩ := denoteEntries_matched hps hes
    subst hcode
    refine ⟨entryItem x.code t x j :: fs, ?_, .cons ?_ hall⟩
    · rw [denoteEntries, convert_spell, Option.bind_some, hj, Option.bind_some, hfs, Option.map_some]
    · exact .container _ _ _ _ (.cons _ _ _ _ (.basic x) (.cons _ _ _ _ hsame .nil))

mutual
/-- What is structurally equal to a spelling stands for the same value. -/
theorem same_of_deepEq : ∀ {t : Ty} {v : Janet} {i : Item}, Spells t v i → Matched rt t v i
  | _, _, _, .basic x, w, h => by
    obtain rfl : w = spell x := eq_of_deepEq (spell_isAtom x) h
    exact ⟨.basic x, by rw [denote, convert_spell, Option.map_some], .basic x⟩
  | _, _, _, .variant t bs v i hbs hv, w, h => by
    obtain ⟨ws, rfl, h⟩ := deepEq_tuple h
    obtain ⟨s, us, rfl, hs, h⟩ := deepEqAll_cons h
    obtain ⟨u, us', rfl, hu, h⟩ := deepEqAll_cons h
    obtain rfl := deepEqAll_nil h
    obtain rfl : s = .string bs := eq_of_deepEq rfl hs
    obtain ⟨j, hj, hsame⟩ := same_of_deepEq hv u hu
    refine ⟨.container .variant t.render [j], ?_, .container _ _ _ _ (.cons _ _ _ _ hsame .nil)⟩
    rw [denote_variant_eq, parse_chars hbs, Option.bind_some, hj, Option.map_some, hbs]
  | _, _, _, .array t vs is ht hvs, w, h => by
    obtain ⟨ws, rfl, h⟩ := deepEq_array h
    obtain ⟨js, hjs, hall⟩ := sameEach_of_deepEq hvs ws h
    refine ⟨.container .array t.render js, ?_, .container _ _ _ _ (allSame_iff.mpr hall)⟩
    rw [denote_array ht, janetIndexedView, Option.bind_some, hjs, Option.map_some]
  | _, _, _, .dict k t kvs es hkvs _, w, h => by
    obtain ⟨ps, rfl, h⟩ := deepEq_table h
    obtain ⟨zs, hzs, hpairs⟩ := deepEqEntries_perm h
    -- the entries, in the order of the pairs of `w`
    obtain ⟨ms, hms, hmperm⟩ := List.perm_comp_forall₂ hzs.symm (matchedEntries hkvs)
    obtain ⟨fs, hfs, hall⟩ := denoteEntries_matched hpairs hms
    obtain ⟨ns, hns, hnperm⟩ : Relation.Comp List.Perm (List.Forall₂ Item.Same) fs es :=
      List.forall₂_comp_perm_eq_perm_comp_forall₂ ▸ ⟨ms, hall, hmperm⟩
    refine ⟨.container .array (renderEntry k t) fs, ?_, .entries _ _ ns _ hns (allSame_iff.mpr hnperm)⟩
    rw [denote_dict, janetDictionaryView, Option.bind_some, hfs, Option.map_some]
  | _, _, _, .struct t ts vs is hvs, w, h => by
    obtain ⟨ws, rfl, h⟩ := deepEq_tuple h
    obtain ⟨js, hjs, hall⟩ := sameFields_of_deepEq hvs ws h
    refine ⟨.container .struct (renderAll (t :: ts)) js, ?_, .container _ _ _ _ (allSame_iff.mpr hall)⟩
    rw [denote_struct, janetIndexedView, Option.bind_some, hjs, Option.map_some]
theorem sameEach_of_deepEq : ∀ {t : Ty} {vs : List Janet} {is : List Item}, SpellsEach t vs is →
    ∀ ws, deepEqAll ws vs = true → ∃ js, denoteEach rt t ws = some js ∧ List.Forall₂ Item.Same js is
  | _, _, _, .nil _, ws, h => by
    obtain rfl := deepEqAll_nil h
    exact ⟨[], by rw [denoteEach], .nil⟩
  | _, _, _, .cons t v vs i is hv hvs, ws, h => by
    obtain ⟨u, us, rfl, hu, h⟩ := deepEqAll_cons h
    obtain ⟨j, hj, hsame⟩ := same_of_deepEq hv u hu
    obtain ⟨js, hjs, hall⟩ := sameEach_of_deepEq hvs us h
    exact ⟨j :: js, by rw [denoteEach, hj, Option.bind_some, hjs, Option.map_some], .cons hsame hall⟩
theorem matchedEntries : ∀ {k : Code} {t : Ty} {kvs : List (Janet × Janet)} {es : List Item},
    SpellsEntries k t kvs es → List.Forall₂ (fun kv e => ∃ x i, kv.1 = spell x ∧ x.code = k ∧
      e = entryItem k t x i ∧ Matched rt t kv.2 i) kvs es
  | _, _, _, _, .nil _ _ => .nil
  | _, _, _, _, .cons x t v i kvs es hv hvs =>
    .cons ⟨x, i, rfl, rfl, rfl, fun w h => same_of_deepEq hv w h⟩ (matchedEntries hvs)
theorem sameFields_of_deepEq : ∀ {ts : List Ty} {vs : List Janet} {is : List Item}, SpellsFields ts vs is →
    ∀ ws, deepEqAll ws vs = true → ∃ js, denoteFields rt ts ws = some js ∧ List.Forall₂ Item.Same js is
  | _, _, _, .nil, ws, h => by
    obtain rfl := deepEqAll_nil h
    exact ⟨[], by rw [denoteFields], .nil⟩
  | _, _, _, .cons t ts v vs i is hv hvs, ws, h => by
    obtain ⟨u, us, rfl, hu, h⟩ := deepEqAll_cons h
    obtain ⟨j, hj, hsame⟩ := same_of_deepEq hv u hu
    obtain ⟨js, hjs, hall⟩ := sameFields_of_deepEq hvs us h
    exact ⟨j :: js, by rw [denoteFields, hj, Option.bind_some, hjs, Option.map_some], .cons hsame hall⟩
end

end spelling

end JanetSdbus.Message
