import JanetSdbus.Message.Total

/-! What the container branches cut out of a signature.

    `find_subtype` and `match` look at the signature and at nothing behind the type: the array branch
    copies the element type, the struct branch the field types and the dictionary branch the entry,
    whose braces it strips, and each leaves the cursor on the last character of its type. -/

namespace JanetSdbus.Message
open DBus Schemes.CMemory

variable (rt : Runtime) (sd : SdBus) (rec : Ptr → Janet → Append Ptr)

/-! ### Behind the copy -/

/-- `append_array_type` behind its copy. -/
def arrayFrom (arg : Janet) (contents : List Char) (array_sig : Ptr) : Append Unit := do
  callSdBusFunc rt sd (.openContainer .array contents)
  let array ← getindexed rt arg
  appendElements rec array_sig array
  callSdBusFunc rt sd .closeContainer
  janetSfree array_sig

/-- `append_struct_type` behind its copy. -/
def structFrom (arg : Janet) (contents : List Char) (struct_sig : Ptr) : Append Unit := do
  callSdBusFunc rt sd (.openContainer .struct contents)
  let array ← getindexed rt arg
  panicIf (array.length = 0) (pure "Empty struct: missing arguments")
  let q ← appendFields rec struct_sig struct_sig array
  let ch ← cursor q
  panicIf (ch ≠ '\x00') (withStr "Arguments missing for struct signature: " struct_sig)
  callSdBusFunc rt sd .closeContainer
  janetSfree struct_sig

/-- The braces come off: `n` characters stand between them. -/
def stripBraces (dict_sig : Ptr) (n : ℕ) : Append Unit := do
  memmove dict_sig (dict_sig.add 1) n
  update (·.write (dict_sig.add n) ['\x00'])

/-- `append_dict_type` behind its copy. -/
def dictFrom (arg : Janet) (contents : List Char) (dict_sig : Ptr) : Append Unit := do
  callSdBusFunc rt sd (.openContainer .array contents)
  stripBraces dict_sig (contents.length - 2)
  let dict ← getdictionary rt arg
  appendEntries rt sd rec dict_sig dict
  callSdBusFunc rt sd .closeContainer
  janetSfree dict_sig

/-- The branch, started in `st` at `p`, copies `contents` and goes on with `rest`; it leaves the cursor
    `n` characters on, where `last` stands in front of `r`. Nothing else has happened to the state. -/
def Cuts (branch : Append Ptr) (st : AppendState) (p : Ptr) (contents : List Char) (n : ℕ) (last : Char)
    (r : List Char) (rest : List Char → Ptr → Append Unit) : Prop :=
  ∃ copy st', Str st'.mem copy contents ∧ copy.off = 0 ∧ st.mem.next ≤ copy.blk ∧ Extends st.mem st'.mem ∧
    st'.errctx = st.errctx ∧ st'.calls = st.calls ∧ Str st'.mem (p.add n) (last :: r) ∧
    branch st = (do rest contents copy; pure (p.add n)) st'

variable {rt sd rec} {st st' : AppendState} {p q : Ptr} {s r : List Char} {arg : Janet}

/-! ### The branches -/

theorem skip_ok {n : ℕ} {c : Char} (h : Str st.mem (p.add n) (c :: r)) : skip p n st = .ok (p.add n) st :=
  run_skip.mpr ⟨⟨c, h.cons.1⟩, rfl, rfl⟩

/-- The last character of a type. -/
theorem render_last (t : Ty) : ∃ s c, t.render = s ++ [c] := by
  obtain ⟨s, c, h⟩ := (List.eq_nil_or_concat t.render).resolve_left t.render_ne_nil
  exact ⟨s, c, h.trans List.concat_eq_append⟩

/-- Where the bracket stands, it is copied what stands before it. -/
theorem struct_copies (rt : Runtime) (sd : SdBus) (rec : Ptr → Janet → Append Ptr) {u : List Char} (hu : u ≠ [])
    (hs : Str st.mem p ('(' :: (u ++ ')' :: r)))
    (hmatch : matchBracket '(' ')' ('(' :: (u ++ ')' :: r)) = .ok (u.length + 1)) (arg : Janet) :
    Cuts (appendStructType rt sd rec p arg) st p u (u.length + 1) ')' r (structFrom rt sd rec arg) := by
  have hpos : 0 < u.length := List.length_pos_of_ne_nil hu
  obtain ⟨st₁, st₂, h₁, h₂, hext, he, hcalls, hstr, -⟩ := copy_made hs.cons.2 (Nat.lt_succ_self _)
  have hend : Str st₂.mem (p.add (u.length + 1)) (')' :: r) := by
    have hat := (hs.cons.2.mono hext).append
    rwa [Ptr.add_add, Nat.add_comm 1] at hat
  refine ⟨_, st₂, hstr, rfl, Nat.le_refl _, hext, he, hcalls, hend, ?_⟩
  rw [appendStructType, bind_ok (scan_ok hs hmatch), bind_ok (panicIf_ok (by omega) _), bind_ok h₁,
    Nat.add_sub_cancel, bind_ok h₂, bind_ok (skip_ok hend), bind_ok (run_cstr.mpr ⟨hstr.cstr, rfl⟩)]
  simp only [structFrom, bind_assoc]

/-- The entry is copied with its braces, and its key is looked at. -/
theorem dict_opens (rt : Runtime) (sd : SdBus) (rec : Ptr → Janet → Append Ptr) {k : Char} {u : List Char}
    (hu : u ≠ []) (hs : Str st.mem p ('{' :: (k :: u ++ '}' :: r)))
    (hmatch : matchBracket '{' '}' ('{' :: (k :: u ++ '}' :: r)) = .ok ((k :: u).length + 1)) (arg : Janet) :
    Cuts (appendDictType rt sd rec p arg) st p ('{' :: (k :: u ++ ['}'])) ((k :: u).length + 1) '}' r
      (fun contents dict_sig => do
        panicIf (isBasicType k = false) (withStr "dictionary signature key must be a basic type: " dict_sig)
        dictFrom rt sd rec arg contents dict_sig) := by
  have hpos : 0 < u.length := List.length_pos_of_ne_nil hu
  have hlen : ('{' :: (k :: u ++ ['}'])).length = (k :: u).length + 1 + 1 := by simp
  have hwhole : '{' :: (k :: u ++ '}' :: r) = '{' :: (k :: u ++ ['}']) ++ r := by simp
  have hcopy := hs
  rw [hwhole] at hcopy
  obtain ⟨st₁, st₂, h₁, h₂, hext, he, hcalls, hstr, -⟩ :=
    copy_made (n := (k :: u).length + 1 + 2) hcopy (by omega)
  rw [hlen] at h₂
  have hend : Str st₂.mem (p.add ((k :: u).length + 1)) ('}' :: r) := by
    have hat := (hs.cons.2.mono hext).append
    rwa [Ptr.add_add, Nat.add_comm 1] at hat
  have hkey : cursor ((st.mem.calloc ((k :: u).length + 1 + 2)).1.add 1) st₂ = .ok k st₂ :=
    cursor_ok hstr.cons.2.cons.1
  refine ⟨_, st₂, hstr, rfl, Nat.le_refl _, hext, he, hcalls, hend, ?_⟩
  rw [appendDictType, bind_ok (scan_ok hs hmatch),
    bind_ok (panicIf_ok (by rw [List.length_cons]; omega) _), bind_ok h₁, bind_ok h₂,
    bind_ok (skip_ok hend), bind_ok hkey, bind_assoc]
  by_cases hk : isBasicType k = false
  · obtain ⟨msg, hraise⟩ := panicIf_raises hk "dictionary signature key must be a basic type: " hstr
    exact (error_bind.mpr (.inl hraise)).trans (error_bind.mpr (.inl hraise)).symm
  · rw [bind_ok (panicIf_ok hk _), bind_ok (panicIf_ok hk _), bind_ok (run_cstr.mpr ⟨hstr.cstr, rfl⟩)]
    simp only [dictFrom, stripBraces, hlen, bind_assoc]
    rfl

theorem dict_copies (rt : Runtime) (sd : SdBus) (rec : Ptr → Janet → Append Ptr) {k : Char} {u : List Char}
    (hk : isBasicType k = true) (hu : u ≠ []) (hs : Str st.mem p ('{' :: (k :: u ++ '}' :: r)))
    (hmatch : matchBracket '{' '}' ('{' :: (k :: u ++ '}' :: r)) = .ok ((k :: u).length + 1)) (arg : Janet) :
    Cuts (appendDictType rt sd rec p arg) st p ('{' :: (k :: u ++ ['}'])) ((k :: u).length + 1) '}' r
      (dictFrom rt sd rec arg) := by
  obtain ⟨q, st₂, hstr, hoff, hyoung, hext, he, hcalls, hend, hrun⟩ := dict_opens rt sd rec hu hs hmatch arg
  rw [bind_assoc, bind_ok (panicIf_ok (by rw [hk]; decide) _)] at hrun
  exact ⟨q, st₂, hstr, hoff, hyoung, hext, he, hcalls, hend, hrun⟩

/-- The element type is the front of what follows the `a`, and the cursor moves as far as it is long. -/
theorem array_copies (rt : Runtime) (sd : SdBus) (rec : Ptr → Janet → Append Ptr) {u v w : List Char} {last : Char}
    (hs : Str st.mem p ('a' :: (u ++ v))) (hbrace : (u ++ v).headD '\x00' ≠ '{')
    (hbyte : (u ++ v).headD '\x00' ≠ 'y') (hfind : findSubtype ('a' :: (u ++ v)) = .ok u.length)
    (hend : 'a' :: (u ++ v) = w ++ last :: r) (hlen : w.length = u.length) (arg : Janet) :
    Cuts (appendArrayType rt sd rec p arg) st p u u.length last r (arrayFrom rt sd rec arg) := by
  have hpeek : peek p st = .ok ((u ++ v).headD '\x00') st := run_peek.mpr ⟨hs.cons.2.read, rfl⟩
  obtain ⟨st₁, st₂, h₁, h₂, hext, he, hcalls, hstr, -⟩ := copy_made hs.cons.2 (Nat.lt_succ_self _)
  have hlast : Str st₂.mem (p.add u.length) (last :: r) := by
    have hat := hs.mono hext
    rw [hend] at hat
    rw [← hlen]
    exact hat.append
  refine ⟨_, st₂, hstr, rfl, Nat.le_refl _, hext, he, hcalls, hlast, ?_⟩
  rw [appendArrayType, bind_ok hpeek, if_neg hbrace, if_neg hbyte, bind_ok (scan_ok hs hfind), bind_ok h₁, bind_ok h₂,
    bind_ok (skip_ok hlast), bind_ok (run_cstr.mpr ⟨hstr.cstr, rfl⟩)]
  simp only [arrayFrom, bind_assoc]

theorem array_cuts (rt : Runtime) (sd : SdBus) (rec : Ptr → Janet → Append Ptr) {t : Ty} (ht : isByte t = false)
    (hs : Str st.mem p (Ty.render (.array t) ++ r)) (arg : Janet) : ∃ last, t.render.getLast? = some last ∧
    Cuts (appendArrayType rt sd rec p arg) st p t.render t.render.length last r (arrayFrom rt sd rec arg) := by
  have hfind := findSubtype_render (.array t) r
  have hlen : (Ty.render (.array t)).length - 1 = t.render.length := by
    rw [Ty.render, List.length_cons, Nat.add_sub_cancel]
  rw [hlen] at hfind
  rw [Ty.render, List.cons_append] at hs hfind
  obtain ⟨a, u, ha, hbrace, _⟩ := t.render_head
  have hhead : (t.render ++ r).headD '\x00' = a := by rw [ha]; rfl
  have hbyte : a ≠ 'y' := fun heq => render_ne_byte ht (by rw [ha, heq]; rfl)
  obtain ⟨w, last, hlast⟩ := render_last t
  refine ⟨last, by rw [hlast]; simp, array_copies (w := 'a' :: w) rt sd rec hs ?_ ?_ hfind ?_ ?_ arg⟩
  · rwa [hhead]
  · rwa [hhead]
  · rw [hlast]; simp
  · rw [hlast]; simp

/-- An array of bytes is not copied; the cursor moves to its `y`. -/
theorem bytes_cut (rt : Runtime) (sd : SdBus) (rec : Ptr → Janet → Append Ptr) {t : Ty} (ht : isByte t = true)
    (hs : Str st.mem p (Ty.render (.array t) ++ r)) (arg : Janet) : Str st.mem (p.add 1) (t.render ++ r) ∧
    t.render.length = 1 ∧ appendArrayType rt sd rec p arg st = (do
      let view ← getbytes rt arg
      callSdBusFunc rt sd (.appendArray view)
      pure (p.add 1)) st := by
  obtain rfl : t = .basic .byte := by
    cases t with
    | basic c => cases c <;> first | rfl | exact absurd ht (by decide)
    | _ => exact absurd ht (by simp [isByte])
  rw [Ty.render, List.cons_append] at hs
  have hinner : Str st.mem (p.add 1) ('y' :: r) := hs.cons.2
  have hpeek : peek p st = .ok 'y' st := run_peek.mpr ⟨hinner.cons.1, rfl⟩
  refine ⟨hinner, rfl, ?_⟩
  rw [appendArrayType, bind_ok hpeek, if_neg (by decide), if_pos rfl]
  exact bind_ok (skip_ok hinner)

theorem struct_cuts (rt : Runtime) (sd : SdBus) (rec : Ptr → Janet → Append Ptr) {t : Ty} {ts : List Ty}
    (hs : Str st.mem p (Ty.render (.struct t ts) ++ r)) (arg : Janet) :
    Cuts (appendStructType rt sd rec p arg) st p (renderAll (t :: ts)) ((renderAll (t :: ts)).length + 1) ')' r
      (structFrom rt sd rec arg) := by
  have hmatch := matchBracket_struct t ts r
  have hren : Ty.render (.struct t ts) ++ r = '(' :: (renderAll (t :: ts) ++ ')' :: r) := by
    simp [Ty.render, renderAll]
  rw [hren] at hs hmatch
  refine struct_copies rt sd rec (fun hnil => ?_) hs hmatch arg
  have hpos := t.render_pos
  have hlen := congrArg List.length hnil
  rw [renderAll, List.length_append, List.length_nil] at hlen
  omega

theorem dict_cuts (rt : Runtime) (sd : SdBus) (rec : Ptr → Janet → Append Ptr) {k : Code} {t : Ty}
    (hs : Str st.mem p (renderEntry k t ++ r)) (arg : Janet) :
    Cuts (appendDictType rt sd rec p arg) st p (renderEntry k t) (t.render.length + 2) '}' r
      (dictFrom rt sd rec arg) := by
  have hmatch := matchBracket_entry k t r
  have hren : renderEntry k t ++ r = '{' :: (k.char :: t.render ++ '}' :: r) := by simp [renderEntry]
  rw [hren] at hs hmatch
  have hcopies := dict_copies rt sd rec (isBasicType_char k) t.render_ne_nil hs hmatch arg
  exact hcopies

/-- What is left of the copy of a bracket's contents when the braces are off. -/
theorem strip_copy {u : List Char} {st₁ : AppendState} (hs : Str st'.mem q ('{' :: (u ++ ['}']))) (hoff : q.off = 0)
    (hnew : st.mem.next ≤ q.blk) (hext : Extends st.mem st'.mem) (hext₁ : Extends st'.mem st₁.mem) :
    ∃ st₂, stripBraces q (('{' :: (u ++ ['}'])).length - 2) st₁ = .ok () st₂ ∧ Str st₂.mem q u ∧
      Extends st.mem st₂.mem ∧ st₂.calls = st₁.calls ∧ st₂.errctx = st₁.errctx := by
  have hnul : '\x00' ∉ u := fun hmem => hs.1 (List.mem_cons_of_mem _ (List.mem_append_left _ hmem))
  obtain ⟨_, cs, rest, hblk, hdrop⟩ := hs.mono hext₁
  have hlen : ('{' :: (u ++ ['}'])).length - 2 = u.length := by simp
  have hcs : st₁.mem.blocks q.blk = some ('{' :: (u ++ '}' :: '\x00' :: rest)) := by
    rw [hoff, List.drop_zero] at hdrop
    rw [hblk, hdrop]
    simp
  obtain ⟨m₂, m₃, _, hmove, hwrite, hext₃, _, hstr⟩ :=
    memmove_strip (hext.trans hext₁) hnew hoff hnul hcs
  have hmoved : memmove q (q.add 1) u.length st₁ = .ok () { st₁ with mem := m₂ } :=
    run_update.mpr ⟨m₂, hmove, rfl⟩
  refine ⟨{ st₁ with mem := m₃ }, ?_, hstr, hext₃, rfl, rfl⟩
  rw [hlen, stripBraces, bind_ok hmoved]
  exact run_update.mpr ⟨m₃, hwrite, rfl⟩

theorem strip_entry {k : Code} {t : Ty} {st₁ : AppendState} (hs : Str st'.mem q (renderEntry k t)) (hoff : q.off = 0)
    (hnew : st.mem.next ≤ q.blk) (hext : Extends st.mem st'.mem) (hext₁ : Extends st'.mem st₁.mem) :
    ∃ st₂, stripBraces q ((renderEntry k t).length - 2) st₁ = .ok () st₂ ∧ Str st₂.mem q (k.char :: t.render) ∧
      Extends st.mem st₂.mem ∧ st₂.calls = st₁.calls := by
  have hren : renderEntry k t = '{' :: (k.char :: t.render ++ ['}']) := by simp [renderEntry]
  rw [hren] at hs ⊢
  obtain ⟨st₂, hrun, hstr, hext₂, hcalls, _⟩ := strip_copy hs hoff hnew hext hext₁
  exact ⟨st₂, hrun, hstr, hext₂, hcalls⟩

/-! ### All of it -/

/-- Whatever follows in the string: `find_subtype` and `match` measure exactly the element and the
    contents, and the branches copy exactly these and leave the cursor on the last character. -/
theorem cut_exactly (rt : Runtime) (sd : SdBus) (rec : Ptr → Janet → Append Ptr) (r : List Char) :
    (∀ t : Ty, findSubtype ('a' :: (t.render ++ r)) = .ok t.render.length) ∧
    (∀ t ts, matchBracket '(' ')' (Ty.render (.struct t ts) ++ r) = .ok ((renderAll (t :: ts)).length + 1) ∧
      Ty.render (.struct t ts) = '(' :: (renderAll (t :: ts) ++ [')'])) ∧
    (∀ k t, matchBracket '{' '}' (renderEntry k t ++ r) = .ok ((k.char :: t.render).length + 1) ∧
      renderEntry k t = '{' :: ((k.char :: t.render) ++ ['}'])) ∧
    ∀ (p : Ptr) (st : AppendState) (arg : Janet),
      (∀ t, isByte t = false → Str st.mem p (Ty.render (.array t) ++ r) → ∃ last, t.render.getLast? = some last ∧
        Cuts (appendArrayType rt sd rec p arg) st p t.render t.render.length last r (arrayFrom rt sd rec arg)) ∧
      (∀ t, isByte t = true → Str st.mem p (Ty.render (.array t) ++ r) → Str st.mem (p.add 1) (t.render ++ r) ∧
        t.render.length = 1 ∧ appendArrayType rt sd rec p arg st = (do
          let view ← getbytes rt arg
          callSdBusFunc rt sd (.appendArray view)
          pure (p.add 1)) st) ∧
      (∀ t ts, Str st.mem p (Ty.render (.struct t ts) ++ r) →
        Cuts (appendStructType rt sd rec p arg) st p (renderAll (t :: ts)) ((renderAll (t :: ts)).length + 1) ')' r
          (structFrom rt sd rec arg)) ∧
      (∀ k t, Str st.mem p (renderEntry k t ++ r) →
        Cuts (appendDictType rt sd rec p arg) st p (renderEntry k t) (t.render.length + 2) '}' r
          (dictFrom rt sd rec arg)) ∧
      ∀ k t (q : Ptr) (st' st₁ : AppendState), Str st'.mem q (renderEntry k t) → q.off = 0 → st.mem.next ≤ q.blk →
        Extends st.mem st'.mem → Extends st'.mem st₁.mem →
        ∃ st₂, stripBraces q ((renderEntry k t).length - 2) st₁ = .ok () st₂ ∧
          Str st₂.mem q (k.char :: t.render) ∧ Extends st.mem st₂.mem ∧ st₂.calls = st₁.calls := by
  refine ⟨fun t => ?_, fun t ts => ⟨matchBracket_struct t ts r, by simp [Ty.render, renderAll]⟩,
    fun k t => ⟨matchBracket_entry k t r, by simp [renderEntry]⟩, fun p st arg => ⟨?_, ?_, ?_, ?_, ?_⟩⟩
  · have h := findSubtype_render (.array t) r
    rwa [Ty.render, List.length_cons, Nat.add_sub_cancel, List.cons_append] at h
  · exact fun t ht hs => array_cuts rt sd rec ht hs arg
  · exact fun t ht hs => bytes_cut rt sd rec ht hs arg
  · exact fun t ts hs => struct_cuts rt sd rec hs arg
  · exact fun k t hs => dict_cuts rt sd rec hs arg
  · exact fun k t q st' st₁ hs hoff hnew hext hext₁ => strip_entry hs hoff hnew hext hext₁

/-- The element of `aa{s(ii)}`, in front of an `i`. -/
theorem cut_exactly_nested : ∃ last, Cuts (appendArrayType silentRuntime checkingBus (fun p _ => pure p) ⟨0, 0⟩ .nil)
    (initial ['a', 'a', '{', 's', '(', 'i', 'i', ')', '}', 'i']) ⟨0, 0⟩ ['a', '{', 's', '(', 'i', 'i', ')', '}'] 8
    last ['i'] (arrayFrom silentRuntime checkingBus (fun p _ => pure p) .nil) := by
  obtain ⟨t, ht⟩ : ∃ t : Ty, t = .dict .string (.struct (.basic .int32) [.basic .int32]) := ⟨_, rfl⟩
  have hren : t.render = ['a', '{', 's', '(', 'i', 'i', ')', '}'] := by
    rw [ht]
    simp [Ty.render, renderAll, Code.char]
  have hs : Str (initial ['a', 'a', '{', 's', '(', 'i', 'i', ')', '}', 'i']).mem ⟨0, 0⟩
      (Ty.render (.array t) ++ ['i']) := by
    rw [Ty.render, hren]
    exact initial_str (by decide)
  obtain ⟨_, _, _, hcuts⟩ := cut_exactly silentRuntime checkingBus (fun p _ => pure p) ['i']
  obtain ⟨last, _, hcut⟩ := (hcuts ⟨0, 0⟩ (initial ['a', 'a', '{', 's', '(', 'i', 'i', ')', '}', 'i'])
    Janet.nil).1 t (by rw [ht]; rfl) hs
  rw [hren] at hcut
  exact ⟨last, hcut⟩

end JanetSdbus.Message
