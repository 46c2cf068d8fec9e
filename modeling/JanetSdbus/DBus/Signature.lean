import Mathlib.Data.List.Basic

/-! D-Bus signatures.

    A complete type is rendered as the characters that stand for it, and `parseTy` reads one off the
    front of a string. The parser inverts the rendering (`parseTy_render`, `parseTy_sound`), so no
    rendering is a proper prefix of another: a string splits into complete types in at most one way
    (`render_inj`, `renderAll_inj`). `Fits` says which contents a container may have. -/

namespace DBus

/-! ### Types -/

/-- The basic types. -/
inductive Code where
  | byte
  | boolean
  | int16
  | uint16
  | int32
  | uint32
  | int64
  | uint64
  | double
  | string
  | objectPath
  | signature
  | fd
  deriving DecidableEq, Repr

def Code.char : Code → Char
  | .byte => 'y'
  | .boolean => 'b'
  | .int16 => 'n'
  | .uint16 => 'q'
  | .int32 => 'i'
  | .uint32 => 'u'
  | .int64 => 'x'
  | .uint64 => 't'
  | .double => 'd'
  | .string => 's'
  | .objectPath => 'o'
  | .signature => 'g'
  | .fd => 'h'

def Code.all : List Code :=
  [.byte, .boolean, .int16, .uint16, .int32, .uint32, .int64, .uint64, .double, .string,
    .objectPath, .signature, .fd]

def Code.ofChar (ch : Char) : Option Code := Code.all.find? fun c => c.char = ch

@[simp] theorem Code.ofChar_char (c : Code) : Code.ofChar c.char = some c := by
  cases c <;> decide

theorem Code.ofChar_eq_some {ch : Char} {c : Code} (h : Code.ofChar ch = some c) : c.char = ch := by
  have hc := List.find?_some h
  simpa using hc

theorem Code.char_inj {c d : Code} (h : c.char = d.char) : c = d := by
  have hc := Code.ofChar_char c
  rw [h, Code.ofChar_char] at hc
  exact (Option.some.inj hc).symm

/-- The characters that open, close or stand for something else are not basic types. -/
theorem Code.char_ne (c : Code) : c.char ≠ 'v' ∧ c.char ≠ 'a' ∧ c.char ≠ '(' ∧ c.char ≠ ')' ∧
    c.char ≠ '{' ∧ c.char ≠ '}' ∧ c.char ≠ '\x00' := by
  cases c <;> decide

/-- Complete types. A struct has at least one field, a dictionary a basic key. -/
inductive Ty where
  | basic (c : Code)
  | variant
  | array (elem : Ty)
  | dict (key : Code) (value : Ty)
  | struct (first : Ty) (rest : List Ty)

/-- Induction over types, with one hypothesis for all fields of a struct. -/
@[elab_as_elim]
theorem Ty.induct {P : Ty → Prop} (basic : ∀ c, P (.basic c)) (variant : P .variant)
    (array : ∀ t, P t → P (.array t)) (dict : ∀ k v, P v → P (.dict k v))
    (struct : ∀ t ts, P t → (∀ u ∈ ts, P u) → P (.struct t ts)) (t : Ty) : P t := by
  refine Ty.rec (motive_1 := P) (motive_2 := fun ts => ∀ u ∈ ts, P u) basic variant array dict
    struct ?_ ?_ t
  · simp
  · intro head tail hhead htail u hu
    rcases List.mem_cons.mp hu with rfl | hu
    · exact hhead
    · exact htail u hu

mutual
def Ty.render : Ty → List Char
  | .basic c => [c.char]
  | .variant => ['v']
  | .array t => 'a' :: t.render
  | .dict k v => 'a' :: '{' :: k.char :: (v.render ++ ['}'])
  | .struct t ts => '(' :: (t.render ++ (renderAll ts ++ [')']))
def renderAll : List Ty → List Char
  | [] => []
  | t :: ts => t.render ++ renderAll ts
end

/-- The contents of an array of dictionary entries. -/
def renderEntry (k : Code) (v : Ty) : List Char := '{' :: k.char :: (v.render ++ ['}'])

theorem renderAll_append : ∀ ts us : List Ty, renderAll (ts ++ us) = renderAll ts ++ renderAll us
  | [], _ => by rw [List.nil_append, renderAll, List.nil_append]
  | t :: ts, us => by rw [List.cons_append, renderAll, renderAll, renderAll_append, List.append_assoc]

/-! ### The parser -/

mutual
/-- One complete type from the front of a string; `n` bounds the nesting. -/
def parseTy : ℕ → List Char → Option (Ty × List Char)
  | 0, _ => none
  | _ + 1, [] => none
  | n + 1, c :: s =>
    if c = 'v' then some (.variant, s)
    else if c = 'a' then parseElem n s
    else if c = '(' then
      (parseTy n s).bind fun p => (parseFields n p.2).map fun q => (.struct p.1 q.1, q.2)
    else (Code.ofChar c).map fun c => (.basic c, s)
/-- What follows an `a`. -/
def parseElem : ℕ → List Char → Option (Ty × List Char)
  | 0, _ => none
  | n + 1, '{' :: k :: s =>
    (Code.ofChar k).bind fun k => (parseTy n s).bind fun p =>
      if p.2.head? = some '}' then some (.dict k p.1, p.2.tail) else none
  | n + 1, s => (parseTy n s).map fun p => (.array p.1, p.2)
/-- The remaining fields of a struct, up to its closing bracket. -/
def parseFields : ℕ → List Char → Option (List Ty × List Char)
  | 0, _ => none
  | n + 1, s =>
    if s.head? = some ')' then some ([], s.tail)
    else (parseTy n s).bind fun p => (parseFields n p.2).map fun q => (p.1 :: q.1, q.2)
end

/-- A string that is one complete type. -/
def parse (s : List Char) : Option Ty :=
  match parseTy (2 * s.length + 1) s with
  | some (t, []) => some t
  | _ => none

/-- A string that is a sequence of complete types. -/
def parseAll : ℕ → List Char → Option (List Ty)
  | _, [] => some []
  | 0, _ :: _ => none
  | n + 1, s => (parseTy (2 * s.length + 1) s).bind fun p => (parseAll n p.2).map fun ts => p.1 :: ts

/-! ### Renderings -/

theorem Ty.render_pos (t : Ty) : 0 < t.render.length := by
  cases t <;> simp [Ty.render]

/-- How a complete type may begin. -/
theorem Ty.render_head (t : Ty) : ∃ c s, t.render = c :: s ∧ c ≠ '{' ∧ c ≠ '}' ∧ c ≠ ')' := by
  cases t with
  | basic c =>
    obtain ⟨_, _, _, h₁, h₂, h₃, _⟩ := c.char_ne
    exact ⟨c.char, [], by rw [Ty.render], h₂, h₃, h₁⟩
  | variant => exact ⟨'v', [], by rw [Ty.render], by decide, by decide, by decide⟩
  | array t => exact ⟨'a', t.render, by rw [Ty.render], by decide, by decide, by decide⟩
  | dict k v => exact ⟨'a', _, by rw [Ty.render], by decide, by decide, by decide⟩
  | struct t ts => exact ⟨'(', _, by rw [Ty.render], by decide, by decide, by decide⟩

/-- No complete type is a dictionary entry. -/
theorem Ty.render_no_entry (t : Ty) : t.render.head? ≠ some '{' := by
  obtain ⟨c, s, hc, hne, _⟩ := t.render_head
  rw [hc]
  exact fun h => hne (Option.some.inj h)

theorem Ty.render_ne_nil (t : Ty) : t.render ≠ [] :=
  List.ne_nil_of_length_pos t.render_pos

/-- No rendering contains a NUL. -/
theorem Ty.nul_not_mem_render (t : Ty) : '\x00' ∉ t.render := by
  induction t using Ty.induct with
  | basic c => simpa [Ty.render] using c.char_ne.2.2.2.2.2.2.symm
  | variant => decide
  | array t ih => simpa [Ty.render] using ih
  | dict k v ih => simpa [Ty.render, ih] using k.char_ne.2.2.2.2.2.2.symm
  | struct t ts ih ihs =>
    have hall : '\x00' ∉ renderAll ts := by
      clear ih
      induction ts with
      | nil => simp [renderAll]
      | cons u us ihu =>
        simp only [renderAll, List.mem_append, not_or]
        exact ⟨ihs u (by simp), ihu fun w hw => ihs w (List.mem_cons_of_mem _ hw)⟩
    simp [Ty.render, ih, hall]

theorem nul_not_mem_renderAll : ∀ ts : List Ty, '\x00' ∉ renderAll ts
  | [] => by simp [renderAll]
  | t :: ts => by
    simp only [renderAll, List.mem_append, not_or]
    exact ⟨t.nul_not_mem_render, nul_not_mem_renderAll ts⟩

/-! ### The parser inverts the rendering -/

theorem parseElem_array {n : ℕ} {c : Char} {s : List Char} (h : c ≠ '{') :
    parseElem (n + 1) (c :: s) = (parseTy n (c :: s)).map fun p => (.array p.1, p.2) := by
  rw [parseElem]
  intro k s' heq
  exact absurd (List.cons.inj heq).1 h

/-- The fields of a struct are parsed, if each field alone is. -/
theorem parseFields_render {r : List Char} : ∀ (ts : List Ty) {n : ℕ},
    (∀ t ∈ ts, ∀ n r, 2 * t.render.length ≤ n → parseTy n (t.render ++ r) = some (t, r)) →
    2 * (renderAll ts).length + 1 ≤ n → parseFields n (renderAll ts ++ ')' :: r) = some (ts, r)
  | [], n + 1, _, _ => by simp [renderAll, parseFields]
  | t :: ts, n + 1, hts, hn => by
    obtain ⟨c, s, hc, _, _, hne⟩ := t.render_head
    have hpos := t.render_pos
    simp only [renderAll, List.length_append] at hn
    have hhead : (t.render ++ (renderAll ts ++ ')' :: r)).head? ≠ some ')' := by
      rw [hc, List.cons_append, List.head?_cons]
      exact fun heq => hne (Option.some.inj heq)
    rw [renderAll, List.append_assoc, parseFields, if_neg hhead,
      hts t (by simp) n _ (by omega), Option.bind_some,
      parseFields_render ts (fun u hu => hts u (List.mem_cons_of_mem _ hu)) (by omega),
      Option.map_some]

theorem parseTy_render (t : Ty) : ∀ (n : ℕ) (r : List Char), 2 * t.render.length ≤ n →
    parseTy n (t.render ++ r) = some (t, r) := by
  induction t using Ty.induct with
  | basic c =>
    intro n r hn
    obtain ⟨m, rfl⟩ : ∃ m, n = m + 1 := ⟨n - 1, by simp [Ty.render] at hn; omega⟩
    obtain ⟨hv, ha, hb, _⟩ := c.char_ne
    rw [Ty.render, List.cons_append, List.nil_append, parseTy, if_neg hv, if_neg ha, if_neg hb,
      Code.ofChar_char, Option.map_some]
  | variant =>
    intro n r hn
    obtain ⟨m, rfl⟩ : ∃ m, n = m + 1 := ⟨n - 1, by simp [Ty.render] at hn; omega⟩
    rw [Ty.render, List.cons_append, List.nil_append, parseTy, if_pos rfl]
  | array t ih =>
    intro n r hn
    have hpos := t.render_pos
    obtain ⟨m, rfl⟩ : ∃ m, n = m + 2 := ⟨n - 2, by simp [Ty.render] at hn; omega⟩
    obtain ⟨c, s, hc, hne, _⟩ := t.render_head
    have hih := ih m r (by simp [Ty.render] at hn; omega)
    rw [hc, List.cons_append] at hih
    rw [Ty.render, List.cons_append, parseTy, if_neg (by decide), if_pos rfl, hc, List.cons_append,
      parseElem_array hne, hih, Option.map_some]
  | dict k v ih =>
    intro n r hn
    obtain ⟨m, rfl⟩ : ∃ m, n = m + 2 := ⟨n - 2, by simp [Ty.render] at hn; omega⟩
    have hih := ih m ('}' :: r) (by simp [Ty.render] at hn; omega)
    simp only [Ty.render, List.cons_append, List.append_assoc, List.nil_append]
    rw [parseTy, if_neg (by decide), if_pos rfl, parseElem, Code.ofChar_char, Option.bind_some, hih,
      Option.bind_some, List.head?_cons, if_pos rfl, List.tail_cons]
  | struct t ts ih ihs =>
    intro n r hn
    have hpos := t.render_pos
    obtain ⟨m, rfl⟩ : ∃ m, n = m + 1 := ⟨n - 1, by simp [Ty.render] at hn; omega⟩
    simp only [Ty.render, List.length_cons, List.length_append, List.length_nil] at hn
    have hfields := parseFields_render (r := r) ts (n := m) ihs (by omega)
    simp only [Ty.render, List.cons_append, List.append_assoc, List.nil_append]
    rw [parseTy, if_neg (by decide), if_neg (by decide), if_pos rfl, ih m _ (by omega),
      Option.bind_some, hfields, Option.map_some]

/-- What the parser reads is what it returns. -/
theorem parser_sound : ∀ n : ℕ,
    (∀ s t r, parseTy n s = some (t, r) → s = t.render ++ r) ∧
    (∀ s t r, parseElem n s = some (t, r) → 'a' :: s = t.render ++ r) ∧
    (∀ s ts r, parseFields n s = some (ts, r) → s = renderAll ts ++ ')' :: r)
  | 0 => by
    refine ⟨?_, ?_, ?_⟩
    · intro s t r h; simp [parseTy] at h
    · intro s t r h; simp [parseElem] at h
    · intro s t r h; simp [parseFields] at h
  | n + 1 => by
    obtain ⟨hty, helem, hfields⟩ := parser_sound n
    refine ⟨?_, ?_, ?_⟩
    · intro s t r h
      cases s with
      | nil => simp [parseTy] at h
      | cons c s =>
        rw [parseTy] at h
        split at h
        · next hc =>
          obtain ⟨rfl, rfl⟩ := Prod.mk.inj (Option.some.inj h)
          rw [hc, Ty.render, List.cons_append, List.nil_append]
        · split at h
          · next hc => rw [hc]; exact helem s t r h
          · split at h
            · next hc =>
              obtain ⟨⟨u, s'⟩, hu, h⟩ := Option.bind_eq_some_iff.mp h
              obtain ⟨⟨us, s''⟩, hus, h⟩ := Option.map_eq_some_iff.mp h
              obtain ⟨rfl, rfl⟩ := Prod.mk.inj h
              have hs' : s' = renderAll us ++ ')' :: s'' := hfields _ _ _ hus
              rw [hc, hty _ _ _ hu, hs', Ty.render]
              simp
            · obtain ⟨k, hk, h⟩ := Option.map_eq_some_iff.mp h
              obtain ⟨rfl, rfl⟩ := Prod.mk.inj h
              rw [Ty.render, Code.ofChar_eq_some hk, List.cons_append, List.nil_append]
    · intro s t r h
      rw [parseElem.eq_def] at h
      split at h
      · simp at *
      · next m k s' heq =>
        obtain rfl := Nat.succ.inj heq
        obtain ⟨c, hc, h⟩ := Option.bind_eq_some_iff.mp h
        obtain ⟨⟨v, s''⟩, hv, h⟩ := Option.bind_eq_some_iff.mp h
        obtain ⟨hhead, h⟩ := Option.ite_none_right_eq_some.mp h
        obtain ⟨rfl, rfl⟩ := Prod.mk.inj (Option.some.inj h)
        cases s'' with
        | nil => simp at hhead
        | cons b s'' =>
          obtain rfl : b = '}' := Option.some.inj hhead
          rw [hty _ _ _ hv, Ty.render, Code.ofChar_eq_some hc]
          simp
      · next m heq _ =>
        obtain rfl := Nat.succ.inj heq
        obtain ⟨⟨u, s'⟩, hu, h⟩ := Option.map_eq_some_iff.mp h
        obtain ⟨rfl, rfl⟩ := Prod.mk.inj h
        rw [hty _ _ _ hu, Ty.render, List.cons_append]
    · intro s ts r h
      rw [parseFields] at h
      split at h
      · next hhead =>
        obtain ⟨rfl, rfl⟩ := Prod.mk.inj (Option.some.inj h)
        cases s with
        | nil => simp at hhead
        | cons b s =>
          obtain rfl : b = ')' := Option.some.inj hhead
          rw [renderAll, List.nil_append, List.tail_cons]
      · obtain ⟨⟨u, s'⟩, hu, h⟩ := Option.bind_eq_some_iff.mp h
        obtain ⟨⟨us, s''⟩, hus, h⟩ := Option.map_eq_some_iff.mp h
        obtain ⟨rfl, rfl⟩ := Prod.mk.inj h
        have hs' : s' = renderAll us ++ ')' :: s'' := hfields _ _ _ hus
        rw [hty _ _ _ hu, hs', renderAll, List.append_assoc]

theorem parseTy_sound {n : ℕ} {s r : List Char} {t : Ty} (h : parseTy n s = some (t, r)) :
    s = t.render ++ r := (parser_sound n).1 s t r h

/-! ### Unique reading -/

theorem render_append_inj {t u : Ty} {r w : List Char} (h : t.render ++ r = u.render ++ w) :
    t = u ∧ r = w := by
  have ht := parseTy_render t (2 * t.render.length + 2 * u.render.length) r (by omega)
  have hu := parseTy_render u (2 * t.render.length + 2 * u.render.length) w (by omega)
  rw [h, hu] at ht
  obtain ⟨h₁, h₂⟩ := Prod.mk.inj (Option.some.inj ht)
  exact ⟨h₁.symm, h₂.symm⟩

theorem render_inj {t u : Ty} (h : t.render = u.render) : t = u :=
  (render_append_inj (r := []) (w := []) (by rw [h])).1

/-- A string splits into complete types in at most one way. -/
theorem renderAll_inj : ∀ {ts us : List Ty}, renderAll ts = renderAll us → ts = us
  | [], [], _ => rfl
  | [], u :: us, h => by
    have hpos := u.render_pos
    have hlen := congrArg List.length h
    simp only [renderAll, List.length_append, List.length_nil] at hlen
    omega
  | t :: ts, [], h => by
    have hpos := t.render_pos
    have hlen := congrArg List.length h
    simp only [renderAll, List.length_append, List.length_nil] at hlen
    omega
  | t :: ts, u :: us, h => by
    rw [renderAll, renderAll] at h
    obtain ⟨rfl, htail⟩ := render_append_inj h
    rw [renderAll_inj htail]

@[simp] theorem parse_render (t : Ty) : parse t.render = some t := by
  have h := parseTy_render t (2 * t.render.length + 1) [] (by omega)
  rw [List.append_nil] at h
  rw [parse, h]

theorem parse_sound {s : List Char} {t : Ty} (h : parse s = some t) : s = t.render := by
  rw [parse] at h
  split at h
  · next u heq =>
    obtain rfl := Option.some.inj h
    rw [parseTy_sound heq, List.append_nil]
  · simp at h

theorem parse_eq_some {s : List Char} {t : Ty} : parse s = some t ↔ s = t.render :=
  ⟨parse_sound, fun h => by rw [h, parse_render]⟩

theorem parseAll_render : ∀ (ts : List Ty) {n : ℕ}, (renderAll ts).length ≤ n →
    parseAll n (renderAll ts) = some ts
  | [], n, _ => by rw [renderAll, parseAll]
  | t :: ts, n, hn => by
    obtain ⟨c, s, hc, _⟩ := t.render_head
    have hpos := t.render_pos
    rw [renderAll, List.length_append] at hn
    obtain ⟨m, rfl⟩ : ∃ m, n = m + 1 := ⟨n - 1, by omega⟩
    have hone := parseTy_render t (2 * (t.render ++ renderAll ts).length + 1) (renderAll ts)
      (by rw [List.length_append]; omega)
    rw [hc, List.cons_append] at hone
    rw [renderAll, hc, List.cons_append, parseAll, hone, Option.bind_some,
      parseAll_render ts (by omega), Option.map_some]
    simp

theorem parseAll_sound : ∀ {n : ℕ} {s : List Char} {ts : List Ty}, parseAll n s = some ts →
    s = renderAll ts
  | _, [], ts, h => by
    rw [parseAll] at h
    rw [← Option.some.inj h, renderAll]
  | 0, _ :: _, _, h => by simp [parseAll] at h
  | n + 1, c :: s, ts, h => by
    rw [parseAll] at h
    · obtain ⟨⟨u, r⟩, hu, h⟩ := Option.bind_eq_some_iff.mp h
      obtain ⟨us, hus, rfl⟩ := Option.map_eq_some_iff.mp h
      have hr : r = renderAll us := parseAll_sound hus
      rw [parseTy_sound hu, hr, renderAll]
    · simp

/-! ### Containers -/

inductive Container where
  | array
  | struct
  | variant
  | dictEntry
  deriving DecidableEq, Repr

/-- The contents a container may have. -/
def Fits : Container → List Char → Prop
  | .array, s => (∃ t : Ty, s = t.render) ∨ ∃ k v, s = renderEntry k v
  | .struct, s => ∃ ts, s = renderAll ts
  | .variant, s => ∃ t : Ty, s = t.render
  | .dictEntry, s => ∃ (k : Code) (v : Ty), s = k.char :: v.render

/-- An array's contents follow an `a`; entries make it a dictionary. -/
theorem fits_array {s : List Char} : Fits .array s ↔ (parse ('a' :: s)).isSome = true := by
  rw [Option.isSome_iff_exists]
  constructor
  · rintro (⟨t, rfl⟩ | ⟨k, v, rfl⟩)
    · exact ⟨.array t, parse_eq_some.mpr (by rw [Ty.render])⟩
    · exact ⟨.dict k v, parse_eq_some.mpr (by rw [Ty.render, renderEntry])⟩
  · rintro ⟨t, ht⟩
    have h := parse_eq_some.mp ht
    cases t with
    | basic c => rw [Ty.render] at h; exact absurd (List.cons.inj h).1.symm c.char_ne.2.1
    | variant => rw [Ty.render] at h; exact absurd (List.cons.inj h).1 (by decide)
    | array t => rw [Ty.render] at h; exact Or.inl ⟨t, (List.cons.inj h).2⟩
    | dict k v => rw [Ty.render] at h; exact Or.inr ⟨k, v, (List.cons.inj h).2⟩
    | struct t ts => rw [Ty.render] at h; exact absurd (List.cons.inj h).1 (by decide)

/-- The same, as a program. -/
def fits : Container → List Char → Bool
  | .array, s => (parse ('a' :: s)).isSome
  | .struct, s => (parseAll s.length s).isSome
  | .variant, s => (parse s).isSome
  | .dictEntry, [] => false
  | .dictEntry, k :: s => (Code.ofChar k).isSome && (parse s).isSome

theorem fits_iff {c : Container} {s : List Char} : fits c s = true ↔ Fits c s := by
  cases c with
  | array => exact fits_array.symm
  | struct =>
    rw [fits, Option.isSome_iff_exists]
    constructor
    · rintro ⟨ts, h⟩; exact ⟨ts, parseAll_sound h⟩
    · rintro ⟨ts, rfl⟩; exact ⟨ts, parseAll_render ts (Nat.le_refl _)⟩
  | variant =>
    rw [fits, Option.isSome_iff_exists]
    constructor
    · rintro ⟨t, h⟩; exact ⟨t, parse_sound h⟩
    · rintro ⟨t, rfl⟩; exact ⟨t, parse_render t⟩
  | dictEntry =>
    cases s with
    | nil => simp [fits, Fits]
    | cons k s =>
      rw [fits, Bool.and_eq_true, Option.isSome_iff_exists, Option.isSome_iff_exists]
      constructor
      · rintro ⟨⟨c, hc⟩, t, ht⟩
        exact ⟨c, t, by rw [Code.ofChar_eq_some hc, ← parse_sound ht]⟩
      · rintro ⟨c, t, h⟩
        obtain ⟨rfl, rfl⟩ := List.cons.inj h
        exact ⟨⟨c, Code.ofChar_char c⟩, t, parse_render t⟩

instance (c : Container) (s : List Char) : Decidable (Fits c s) :=
  decidable_of_iff _ fits_iff

end DBus
