import JanetSdbus.Message.Append

/-! The scanning functions on well-formed signatures, and what they say about any string.

    A word is neutral for a pair of brackets if the counter of `match` is the same behind it.
    Renderings of complete types are neutral for both pairs, whatever else they contain, so `match`
    finds the bracket that closes the first one, and `find_subtype` the end of the type. -/

namespace JanetSdbus.Message
open DBus

theorem isBasicType_iff {ch : Char} : isBasicType ch = true ↔ (∃ c : Code, c.char = ch) ∨ ch = '\x00' := by
  constructor
  · intro h
    rcases Bool.or_eq_true_iff.mp h with h | h
    · left
      have hmem : ch ∈ ['y', 'b', 'n', 'q', 'i', 'u', 'x', 't', 'd', 's', 'o', 'g', 'h'] := by
        simpa using h
      simp only [List.mem_cons, List.not_mem_nil, or_false] at hmem
      rcases hmem with rfl | rfl | rfl | rfl | rfl | rfl | rfl | rfl | rfl | rfl | rfl | rfl | rfl
      exacts [⟨.byte, rfl⟩, ⟨.boolean, rfl⟩, ⟨.int16, rfl⟩, ⟨.uint16, rfl⟩, ⟨.int32, rfl⟩,
        ⟨.uint32, rfl⟩, ⟨.int64, rfl⟩, ⟨.uint64, rfl⟩, ⟨.double, rfl⟩, ⟨.string, rfl⟩,
        ⟨.objectPath, rfl⟩, ⟨.signature, rfl⟩, ⟨.fd, rfl⟩]
    · exact Or.inr (of_decide_eq_true h)
  · rintro (⟨c, rfl⟩ | rfl)
    · cases c <;> decide
    · decide

theorem isBasicType_char (c : Code) : isBasicType c.char = true := isBasicType_iff.mpr (Or.inl ⟨c, rfl⟩)

/-! ### Neutral words -/

section neutral
variable {opn cls : Char}

/-- Behind `w` the counter of `match` is what it was before. -/
def Neutral (opn cls : Char) (w : List Char) : Prop :=
  ∀ d l s, 0 < d → matchLoop opn cls d l (w ++ s) = matchLoop opn cls d (l + w.length) s

theorem neutral_nil : Neutral opn cls [] := fun _ _ _ _ => rfl

theorem Neutral.append {v w : List Char} (hv : Neutral opn cls v) (hw : Neutral opn cls w) :
    Neutral opn cls (v ++ w) := by
  intro d l s hd
  rw [List.append_assoc, hv d l _ hd, hw d _ s hd, List.length_append, Nat.add_assoc]

theorem neutral_char {c : Char} (ho : c ≠ opn) (hc : c ≠ cls) : Neutral opn cls [c] := by
  intro d l s hd
  rw [List.cons_append, List.nil_append, matchLoop]
  simp only [ho, hc, if_false]
  rw [if_neg (Nat.ne_of_gt hd)]
  rfl

theorem Neutral.bracket {w : List Char} (hne : opn ≠ cls) (hw : Neutral opn cls w) :
    Neutral opn cls (opn :: (w ++ [cls])) := by
  intro d l s hd
  rw [List.cons_append, List.append_assoc, matchLoop]
  simp only [if_true]
  rw [if_neg (Nat.succ_ne_zero d), hw (d + 1) (l + 1) _ (Nat.succ_pos d), List.cons_append,
    List.nil_append, matchLoop]
  simp only [hne.symm, if_false, if_true, Nat.add_sub_cancel]
  rw [if_neg (Nat.ne_of_gt hd)]
  congr 1
  simp only [List.length_cons, List.length_append, List.length_nil]
  omega

/-- `match` on a bracketed neutral word. -/
theorem matchBracket_neutral {w r : List Char} (hne : opn ≠ cls) (hw : Neutral opn cls w) :
    matchBracket opn cls (opn :: (w ++ cls :: r)) = .ok (w.length + 1) := by
  have hloop : matchLoop opn cls 1 0 (w ++ cls :: r) = some (w.length + 1) := by
    rw [hw 1 0 _ Nat.one_pos, matchLoop]
    simp [hne.symm]
  rw [matchBracket, List.tail_cons, hloop]

end neutral

/-- The two pairs of brackets. -/
inductive Brackets : Char → Char → Prop where
  | parens : Brackets '(' ')'
  | braces : Brackets '{' '}'

section render
variable {opn cls : Char}

theorem Brackets.ne (hb : Brackets opn cls) : opn ≠ cls := by cases hb <;> decide

theorem neutral_code (hb : Brackets opn cls) (c : Code) : Neutral opn cls [c.char] := by
  obtain ⟨_, _, h₁, h₂, h₃, h₄, _⟩ := c.char_ne
  cases hb with
  | parens => exact neutral_char h₁ h₂
  | braces => exact neutral_char h₃ h₄

/-- A letter is neutral for both pairs. -/
theorem neutral_letter (hb : Brackets opn cls) {c : Char} (h : c = 'a' ∨ c = 'v') :
    Neutral opn cls [c] := by
  cases hb <;> rcases h with rfl | rfl <;> exact neutral_char (by decide) (by decide)

/-- Brackets around a neutral word, of the pair that counts or of the other. -/
theorem neutral_enclosed (hb : Brackets opn cls) {x y : Char} (hxy : Brackets x y) {w : List Char}
    (hw : Neutral opn cls w) : Neutral opn cls (x :: (w ++ [y])) := by
  have hother : ∀ {x y : Char}, x ≠ opn → x ≠ cls → y ≠ opn → y ≠ cls →
      Neutral opn cls (x :: (w ++ [y])) := fun h₁ h₂ h₃ h₄ =>
    (neutral_char h₁ h₂).append (hw.append (neutral_char h₃ h₄))
  cases hb <;> cases hxy
  · exact hw.bracket (by decide)
  · exact hother (by decide) (by decide) (by decide) (by decide)
  · exact hother (by decide) (by decide) (by decide) (by decide)
  · exact hw.bracket (by decide)

theorem neutral_renderAll_of {ts : List Ty} (h : ∀ t ∈ ts, Neutral opn cls t.render) :
    Neutral opn cls (renderAll ts) := by
  induction ts with
  | nil => rw [renderAll]; exact neutral_nil
  | cons t ts ih =>
    rw [renderAll]
    exact (h t (by simp)).append (ih fun u hu => h u (List.mem_cons_of_mem _ hu))

theorem neutral_render (hb : Brackets opn cls) (t : Ty) : Neutral opn cls t.render := by
  induction t using Ty.induct with
  | basic c => rw [Ty.render]; exact neutral_code hb c
  | variant => rw [Ty.render]; exact neutral_letter hb (Or.inr rfl)
  | array t ih => rw [Ty.render]; exact (neutral_letter hb (Or.inl rfl)).append ih
  | dict k v ih =>
    rw [Ty.render]
    exact (neutral_letter hb (Or.inl rfl)).append
      (neutral_enclosed hb .braces ((neutral_code hb k).append ih))
  | struct t ts ih ihs =>
    rw [Ty.render, ← List.append_assoc]
    exact neutral_enclosed hb .parens (ih.append (neutral_renderAll_of ihs))

theorem neutral_renderAll (hb : Brackets opn cls) (ts : List Ty) : Neutral opn cls (renderAll ts) :=
  neutral_renderAll_of fun t _ => neutral_render hb t

end render

theorem matchBracket_struct (t : Ty) (ts : List Ty) (r : List Char) :
    matchBracket '(' ')' (Ty.render (.struct t ts) ++ r) = .ok ((renderAll (t :: ts)).length + 1) := by
  have h := matchBracket_neutral (r := r) (by decide) (neutral_renderAll .parens (t :: ts))
  simpa [Ty.render, renderAll, List.append_assoc] using h

theorem matchBracket_entry (k : Code) (v : Ty) (r : List Char) :
    matchBracket '{' '}' (renderEntry k v ++ r) = .ok (v.render.length + 2) := by
  have h := matchBracket_neutral (r := r) (by decide)
    ((neutral_code .braces k).append (neutral_render .braces v))
  rw [List.length_append, List.length_singleton, Nat.add_comm 1, Nat.add_assoc] at h
  simpa [renderEntry, List.append_assoc] using h

/-- What `find_subtype` returns is the offset of the last character of the type. -/
theorem findSubtype_render (t : Ty) (r : List Char) :
    findSubtype (t.render ++ r) = .ok (t.render.length - 1) := by
  induction t using Ty.induct generalizing r with
  | basic c =>
    obtain ⟨_, ha, hp, _, hb, _⟩ := c.char_ne
    rw [Ty.render, List.cons_append, findSubtype, if_neg ha, if_neg hb, if_neg hp]
    rfl
  | variant => rfl
  | array t ih =>
    have hpos := t.render_pos
    rw [Ty.render, List.cons_append, findSubtype, if_pos rfl, ih r]
    simp only [Except.map, List.length_cons]
    congr 1
    omega
  | dict k v ih =>
    have h := matchBracket_entry k v r
    rw [renderEntry, List.cons_append] at h
    rw [Ty.render, List.cons_append, findSubtype, if_pos rfl, List.cons_append, findSubtype,
      if_neg (by decide), if_pos rfl, h]
    simp only [Except.map, List.length_cons, List.length_append, List.length_nil]
    congr 1
    omega
  | struct t ts ih ihs =>
    have h := matchBracket_struct t ts r
    rw [Ty.render, List.cons_append] at h
    rw [Ty.render, List.cons_append, findSubtype, if_neg (by decide), if_neg (by decide), if_pos rfl, h,
      renderAll]
    simp only [List.length_cons, List.length_append, List.length_nil]
    congr 1

theorem spanNextType_array (s : List Char) :
    spanNextType ('a' :: s) = (findSubtype ('a' :: s)).map (1 + ·) := by
  have hbasic : isBasicType 'a' = false := by decide
  simp [spanNextType, hbasic]

theorem spanNextType_struct (s : List Char) :
    spanNextType ('(' :: s) = matchBracket '(' ')' ('(' :: s) := by
  have hbasic : isBasicType '(' = false := by decide
  simp [spanNextType, hbasic]

/-- What `span_next_type` counts: a struct without its closing bracket. -/
def span : Ty → ℕ
  | .struct t ts => (Ty.render (.struct t ts)).length - 1
  | t => t.render.length

theorem spanNextType_render (t : Ty) (r : List Char) : spanNextType (t.render ++ r) = .ok (span t) := by
  -- from the offset of its last character, for an array or a dictionary
  have hlast : ∀ s, t.render = 'a' :: s → spanNextType (t.render ++ r) = .ok t.render.length := by
    intro s hs
    have h := findSubtype_render t r
    rw [hs, List.cons_append] at h ⊢
    rw [spanNextType_array, h]
    simp only [Except.map, List.length_cons]
    congr 1
    omega
  cases t with
  | basic c => simp [spanNextType, Ty.render, isBasicType_char, span]
  | variant => simp [spanNextType, Ty.render, span]
  | array t => exact hlast t.render (by rw [Ty.render])
  | dict k v => exact hlast _ (by rw [Ty.render])
  | struct t ts =>
    have h := matchBracket_struct t ts r
    rw [Ty.render] at h ⊢
    rw [List.cons_append] at h ⊢
    rw [spanNextType_struct, h, span, Ty.render, renderAll]
    simp only [List.length_cons, List.length_append, List.length_nil]
    congr 1

/-! ### Any string -/

theorem matchLoop_sound {opn cls : Char} : ∀ {s : List Char} {d l n : ℕ}, 0 < d →
    matchLoop opn cls d l s = some n → ∃ w r, s = w ++ cls :: r ∧ n = l + w.length + 1
  | [], _, _, _, _, h => by simp [matchLoop] at h
  | ch :: s, d, l, n, hd, h => by
    rw [matchLoop] at h
    generalize hd' : (if ch = opn then d + 1 else if ch = cls then d - 1 else d) = d' at h
    split at h
    · next hzero =>
      -- the counter can only fall to 0 at a closing bracket
      have hch : ch = cls := by
        by_contra hne
        simp only [hne, if_false] at hd'
        split at hd' <;> omega
      obtain rfl := Option.some.inj h
      exact ⟨[], s, by rw [hch, List.nil_append], by simp⟩
    · next hpos =>
      obtain ⟨w, r, rfl, rfl⟩ := matchLoop_sound (Nat.pos_of_ne_zero hpos) h
      exact ⟨ch :: w, r, rfl, by simp only [List.length_cons]; omega⟩

/-- What `match` returns is the offset of a closing bracket. -/
theorem matchBracket_sound {opn cls c : Char} {s : List Char} {n : ℕ}
    (h : matchBracket opn cls (c :: s) = .ok n) : ∃ w r, s = w ++ cls :: r ∧ n = w.length + 1 := by
  rw [matchBracket, List.tail_cons] at h
  split at h
  · next k hk =>
    obtain ⟨w, r, hs, hn⟩ := matchLoop_sound Nat.one_pos hk
    exact ⟨w, r, hs, by rw [← Except.ok.inj h, hn, Nat.zero_add]⟩
  · exact absurd h (by simp)

/-- `find_subtype` stays inside the string. -/
theorem findSubtype_sound : ∀ {s : List Char} {n : ℕ}, findSubtype s = .ok n →
    ∃ w c r, s = w ++ c :: r ∧ n = w.length
  | [], _, h => by simp [findSubtype] at h
  | ch :: s, n, h => by
    rw [findSubtype] at h
    split at h
    · cases hs : findSubtype s with
      | error e => rw [hs] at h; simp [Except.map] at h
      | ok m =>
        rw [hs] at h
        obtain ⟨w, c, r, rfl, rfl⟩ := findSubtype_sound hs
        exact ⟨ch :: w, c, r, rfl, by rw [← Except.ok.inj h, List.length_cons, Nat.add_comm]⟩
    · split at h
      · obtain ⟨w, r, rfl, rfl⟩ := matchBracket_sound h
        exact ⟨ch :: w, '}', r, rfl, by rw [List.length_cons]⟩
      · split at h
        · obtain ⟨w, r, rfl, rfl⟩ := matchBracket_sound h
          exact ⟨ch :: w, ')', r, rfl, by rw [List.length_cons]⟩
        · exact ⟨[], ch, s, rfl, by rw [← Except.ok.inj h, List.length_nil]⟩

end JanetSdbus.Message
