import JanetSdbus.Message.Walker

/-! The span of a type.

    `append_complete_type` counts the span of the type at its cursor for the error context, and then
    moves the cursor over it. The move is `stride`, whatever the value is and whatever sd-bus answers
    (`appendCompleteType_stride`), and on a complete type it ends at its last character. The count is
    short by one where the type is a struct: `match` returns the offset of the closing bracket, and
    only the array branch adds the character it stands on. -/

namespace JanetSdbus.Message
open DBus Schemes.CMemory

/-- How far `append_complete_type` moves the cursor. -/
def stride (s : List Char) : Except String ℕ :=
  let ch := s.headD '\x00'
  if isBasicType ch || ch = 'v' then .ok 0
  else if ch = '(' then matchBracket '(' ')' s
  else findSubtype s

/-- The span that the error context has on record. -/
def ErrorContext.span (e : ErrorContext) : Option Ptr × ℕ :=
  if 1 < e.depth then (e.sig₁, e.len₁) else (e.sig₀, e.len₀)

variable {rt : Runtime} {sd : SdBus} {rec : Ptr → Janet → Append Ptr} {st st' : AppendState} {p q : Ptr}
  {s r : List Char} {v : Janet} {c : Char}

theorem stride_array (s : List Char) : stride ('a' :: s) = findSubtype ('a' :: s) := by
  have hbasic : isBasicType 'a' = false := by decide
  simp [stride, hbasic]

theorem stride_struct (s : List Char) : stride ('(' :: s) = matchBracket '(' ')' ('(' :: s) := by
  have hbasic : isBasicType '(' = false := by decide
  simp [stride, hbasic]

theorem stride_atom {s : List Char} (h : (isBasicType (s.headD '\x00') || s.headD '\x00' = 'v') = true) :
    stride s = .ok 0 := by
  rw [stride]
  exact if_pos h

/-- It does not leave the string. -/
theorem stride_lt {n : ℕ} (hne : s ≠ []) (h : stride s = .ok n) : n < s.length := by
  cases s with
  | nil => exact absurd rfl hne
  | cons ch s =>
    rw [stride] at h
    split at h
    · rw [← Except.ok.inj h, List.length_cons]
      exact Nat.succ_pos _
    · split at h
      · obtain ⟨w, r, rfl, rfl⟩ := matchBracket_sound h
        simp only [List.length_cons, List.length_append]
        omega
      · obtain ⟨w, c, r, hsplit, rfl⟩ := findSubtype_sound h
        rw [hsplit]
        simp only [List.length_cons, List.length_append]
        omega

/-- Over a complete type, to its last character. -/
theorem stride_render (t : Ty) (r : List Char) : stride (t.render ++ r) = .ok (t.render.length - 1) := by
  cases t with
  | basic c => simp [stride, Ty.render, isBasicType_char]
  | variant => simp [stride, Ty.render]
  | array t =>
    have h := findSubtype_render (.array t) r
    rw [Ty.render, List.cons_append] at h ⊢
    rw [stride_array, h]
  | dict k t =>
    have h := findSubtype_render (.dict k t) r
    rw [Ty.render, List.cons_append] at h ⊢
    rw [stride_array, h]
  | struct t ts =>
    have h := matchBracket_struct t ts r
    rw [Ty.render, List.cons_append] at h ⊢
    rw [stride_struct, h, renderAll]
    simp only [List.length_cons, List.length_append, List.length_nil]
    congr 1

/-! ### The branches -/

/-- Whatever happens before, `x` returns nothing but `a`. -/
def Returns {α : Type} (x : Append α) (a : α) : Prop := ∀ {st st' b}, x st = .ok b st' → b = a

section returns
variable {α β : Type} {x : Append β} {f : β → Append α} {a : α}

theorem Returns.pure : Returns (pure a) a := fun h => (run_pure.mp h).1

theorem Returns.seq (h : ∀ b, Returns (f b) a) : Returns (x >>= f) a := by
  intro st st' b hrun
  obtain ⟨y, _, _, hf⟩ := run_bind.mp hrun
  exact h y hf

theorem Returns.skip {f : Ptr → Append α} {n : ℕ} (h : Returns (f (p.add n)) a) :
    Returns (Message.skip p n >>= f) a := by
  intro st st' b hrun
  obtain ⟨y, _, hskip, hf⟩ := run_bind.mp hrun
  obtain ⟨_, rfl, _⟩ := run_skip.mp hskip
  exact h hf

end returns

theorem appendStructType_stride (hs : Str st.mem p ('(' :: s))
    (h : appendStructType rt sd rec p v st = .ok q st') :
    ∃ n, stride ('(' :: s) = .ok n ∧ q = p.add n := by
  rw [appendStructType] at h
  obtain ⟨end_, _, hscan, h⟩ := run_bind.mp h
  obtain ⟨_, hcstr, hmatch, _⟩ := run_scan.mp hscan
  obtain rfl := Option.some.inj (hs.cstr.symm.trans hcstr)
  refine ⟨end_, by rw [stride_struct, hmatch], ?_⟩
  refine Returns.seq (fun _ => ?_) h
  refine Returns.seq fun _ => Returns.seq fun _ => Returns.skip ?_
  refine Returns.seq fun _ => Returns.seq fun _ => Returns.seq fun _ => Returns.seq fun _ => ?_
  refine Returns.seq fun _ => Returns.seq fun _ => Returns.seq fun _ => ?_
  exact Returns.seq fun _ => Returns.seq fun _ => Returns.pure

theorem appendDictType_stride (hs : Str st.mem p ('{' :: s))
    (h : appendDictType rt sd rec p v st = .ok q st') :
    ∃ n, matchBracket '{' '}' ('{' :: s) = .ok n ∧ q = p.add n := by
  rw [appendDictType] at h
  obtain ⟨end_, _, hscan, h⟩ := run_bind.mp h
  obtain ⟨_, hcstr, hmatch, _⟩ := run_scan.mp hscan
  obtain rfl := Option.some.inj (hs.cstr.symm.trans hcstr)
  refine ⟨end_, hmatch, ?_⟩
  refine Returns.seq (fun _ => ?_) h
  refine Returns.seq fun _ => Returns.seq fun _ => Returns.skip ?_
  refine Returns.seq fun _ => Returns.seq fun _ => Returns.seq fun _ => Returns.seq fun _ => ?_
  refine Returns.seq fun _ => Returns.seq fun _ => Returns.seq fun _ => Returns.seq fun _ => ?_
  exact Returns.seq fun _ => Returns.seq fun _ => Returns.pure

theorem appendArrayType_stride (hs : Str st.mem p ('a' :: s))
    (h : appendArrayType rt sd rec p v st = .ok q st') :
    ∃ n, stride ('a' :: s) = .ok n ∧ q = p.add n := by
  rw [appendArrayType] at h
  obtain ⟨ch, _, hpeek, hrun⟩ := run_bind.mp h
  clear h
  obtain ⟨hpeek, rfl⟩ := run_peek.mp hpeek
  have hhead : ch = s.headD '\x00' := Option.some.inj (hpeek.symm.trans hs.cons.2.read)
  have hcons : ch ≠ '\x00' → ∃ w, s = ch :: w := by
    intro hne
    cases s with
    | nil => exact absurd hhead hne
    | cons c w => exact ⟨w, by rw [hhead]; rfl⟩
  rw [stride_array]
  split at hrun
  · next hbrace =>
    -- a dictionary: one character to its brace, and from there to the closing one
    subst hbrace
    obtain ⟨w, rfl⟩ := hcons (by decide)
    obtain ⟨_, _, hnext, hdict⟩ := run_bind.mp hrun
    obtain ⟨_, rfl, rfl⟩ := run_next.mp hnext
    obtain ⟨n, hn, rfl⟩ := appendDictType_stride hs.cons.2 hdict
    refine ⟨1 + n, ?_, Ptr.add_add p 1 n⟩
    rw [findSubtype, if_pos rfl, findSubtype, if_neg (by decide), if_pos rfl, hn]
    rfl
  · split at hrun
    · next hbyte =>
      subst hbyte
      obtain ⟨w, rfl⟩ := hcons (by decide)
      refine ⟨1, rfl, ?_⟩
      refine Returns.skip ?_ hrun
      exact Returns.seq fun _ => Returns.seq fun _ => Returns.pure
    · obtain ⟨end_, _, hscan, hrun⟩ := run_bind.mp hrun
      obtain ⟨_, hcstr, hfind, _⟩ := run_scan.mp hscan
      obtain rfl := Option.some.inj (hs.cstr.symm.trans hcstr)
      refine ⟨end_, hfind, ?_⟩
      refine Returns.seq (fun _ => ?_) hrun
      refine Returns.seq fun _ => Returns.skip ?_
      refine Returns.seq fun _ => Returns.seq fun _ => Returns.seq fun _ => Returns.seq fun _ => ?_
      exact Returns.seq fun _ => Returns.seq fun _ => Returns.pure

theorem appendVariantType_stride (h : appendVariantType rt sd rec p v st = .ok q st') : q = p := by
  rw [appendVariantType] at h
  obtain ⟨xs, st₁, _, h⟩ := run_bind.mp h
  rcases xs with _ | ⟨sig, _ | ⟨x, _ | ⟨y, ys⟩⟩⟩
  · exact absurd h run_panic
  · exact absurd h run_panic
  · cases sig with
    | string bs =>
      cases hbs : janetGetcbytes bs with
      | none => simp only [hbs] at h; exact absurd h run_panic
      | some s =>
        simp only [hbs] at h
        refine Returns.seq (fun _ => ?_) h
        refine Returns.seq fun _ => Returns.seq fun _ => Returns.seq fun _ => ?_
        exact Returns.seq fun _ => Returns.pure
    | _ => exact absurd h run_panic
  · exact absurd h run_panic

/-- The cursor moves by its stride, on any string. -/
theorem appendBranch_stride (hs : Str st.mem p s) (hc : st.mem.read p = some c)
    (h : appendBranch rt sd rec c p v st = .ok q st') : ∃ n, stride s = .ok n ∧ q = p.add n := by
  have hhead : c = s.headD '\x00' := Option.some.inj (hc.symm.trans hs.read)
  have hcons : c ≠ '\x00' → ∃ w, s = c :: w := by
    intro hne
    cases s with
    | nil => exact absurd hhead hne
    | cons a w => exact ⟨w, by rw [hhead]; rfl⟩
  rw [appendBranch] at h
  split at h
  · next hbasic =>
    obtain ⟨_, _, _, hpure⟩ := run_bind.mp h
    obtain ⟨rfl, _⟩ := run_pure.mp hpure
    exact ⟨0, stride_atom (by rw [← hhead, hbasic]; rfl), rfl⟩
  · split at h
    · next hv =>
      obtain rfl := appendVariantType_stride h
      exact ⟨0, stride_atom (by rw [← hhead, hv]; decide), rfl⟩
    · split at h
      · next hp =>
        subst hp
        obtain ⟨w, rfl⟩ := hcons (by decide)
        exact appendStructType_stride hs h
      · split at h
        · next ha =>
          subst ha
          obtain ⟨w, rfl⟩ := hcons (by decide)
          exact appendArrayType_stride hs h
        · exact absurd h run_panic

theorem errctxSet_span {n : ℕ} {u : Unit} (h : dbusErrctxSet p n st = .ok u st') :
    st'.mem = st.mem ∧ st'.errctx.span = (some p, n) := by
  obtain ⟨_, rfl⟩ := EStateM.Result.ok.inj h
  refine ⟨rfl, ?_⟩
  simp only [ErrorContext.span]
  split <;> rfl

/-- What a return of `append_complete_type` went through: its branch, with the counted span on record. -/
theorem appendCompleteType_span {n : ℕ} (hs : Str st.mem p s)
    (h : appendCompleteType rt sd (n + 1) p v st = .ok q st') : ∃ len k st₁ st₂,
      spanNextType s = .ok len ∧ stride s = .ok k ∧ q = p.add k ∧ st₁.errctx.span = (some p, len) ∧
      (cursor p >>= fun ch => appendBranch rt sd (appendCompleteType rt sd n) ch p v) st₁ = .ok q st₂ := by
  rw [appendCompleteType, appendCompleteBody] at h
  obtain ⟨len, _, hscan, hrun⟩ := run_bind.mp h
  obtain ⟨_, hcstr, hspan, rfl⟩ := run_scan.mp hscan
  obtain rfl := Option.some.inj (hs.cstr.symm.trans hcstr)
  obtain ⟨_, st₁, hset, hrun⟩ := run_bind.mp hrun
  obtain ⟨hmem, hrec⟩ := errctxSet_span hset
  simp only [run_bind, run_cursor, run_pure] at hrun
  obtain ⟨ch, _, ⟨hch, rfl⟩, _, st₂, hbranch, _, _, _, rfl, _⟩ := hrun
  obtain ⟨k, hk, hq⟩ := appendBranch_stride (hmem ▸ hs) hch hbranch
  exact ⟨len, k, _, st₂, hspan, hk, hq, hrec,
    run_bind.mpr ⟨ch, _, run_cursor.mpr ⟨hch, rfl⟩, hbranch⟩⟩

/-! ### Spans of complete types -/

/-- The span counted for the type `t` at the cursor is its length; and wherever `append_complete_type`
    returns, the cursor is at the last character of `t`, and while its branch ran the span on record
    was what it moved over. -/
structure SpansType (rt : Runtime) (sd : SdBus) (t : Ty) (r : List Char) : Prop where
  length : spanNextType (t.render ++ r) = .ok t.render.length
  advance : ∀ {n st st' p q v}, Str st.mem p (t.render ++ r) →
    appendCompleteType rt sd n p v st = .ok q st' → q = p.add (t.render.length - 1)
  recorded : ∀ {n st st' p q v}, Str st.mem p (t.render ++ r) →
    appendCompleteType rt sd (n + 1) p v st = .ok q st' → ∃ len st₁ st₂,
      st₁.errctx.span = (some p, len) ∧ q.add 1 = p.add len ∧
      (cursor p >>= fun ch => appendBranch rt sd (appendCompleteType rt sd n) ch p v) st₁ = .ok q st₂

theorem appendCompleteType_advance {n : ℕ} {t : Ty} (hs : Str st.mem p (t.render ++ r))
    (h : appendCompleteType rt sd n p v st = .ok q st') : q = p.add (t.render.length - 1) := by
  cases n with
  | zero => exact absurd h run_throw
  | succ n =>
    obtain ⟨_, k, _, _, _, hk, hq, _⟩ := appendCompleteType_span hs h
    rw [hq, Except.ok.inj (hk.symm.trans (stride_render t r))]

theorem span_of_ne_struct : ∀ {t : Ty}, (∀ u us, t ≠ .struct u us) → span t = t.render.length
  | .basic _, _ => rfl
  | .variant, _ => rfl
  | .array _, _ => rfl
  | .dict _ _, _ => rfl
  | .struct u us, h => absurd rfl (h u us)

/-- The span is right for every complete type that is not a struct, whatever follows it. -/
theorem spansType_iff (rt : Runtime) (sd : SdBus) (t : Ty) (r : List Char) :
    SpansType rt sd t r ↔ ∀ u us, t ≠ .struct u us := by
  constructor
  · rintro ⟨hlen, _, _⟩ u us rfl
    have hspan := Except.ok.inj ((spanNextType_render (.struct u us) r).symm.trans hlen)
    have hpos := (Ty.struct u us).render_pos
    rw [span] at hspan
    omega
  · intro hne
    have hspan := spanNextType_render t r
    rw [span_of_ne_struct hne] at hspan
    refine ⟨hspan, appendCompleteType_advance, fun {n st st' p q v} hs h => ?_⟩
    obtain ⟨len, k, st₁, st₂, hlen, hk, rfl, hrec, hrun⟩ := appendCompleteType_span hs h
    obtain rfl := Except.ok.inj (hlen.symm.trans hspan)
    obtain rfl := Except.ok.inj (hk.symm.trans (stride_render t r))
    refine ⟨t.render.length, st₁, st₂, hrec, ?_, hrun⟩
    rw [Ptr.add_add, Nat.sub_add_cancel t.render_pos]

/-- A struct of one string spans three characters and is counted as two. -/
theorem spanNextType_struct_short :
    spanNextType ['(', 's', ')'] = .ok 2 ∧ ¬ SpansType silentRuntime checkingBus (.struct (.basic .string) []) [] := by
  refine ⟨rfl, fun h => ?_⟩
  have hlen : (Except.ok 2 : Except String ℕ) = .ok 3 := h.length
  exact absurd (Except.ok.inj hlen) (by decide)

end JanetSdbus.Message
