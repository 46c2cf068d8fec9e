import JanetSdbus.Message.Watch

/-! Type errors point at the right place, but for keys behind the first entry.

    Under an sd-bus that accepts everything the watched walker ends as `blame` says. What is carried
    along is what the error context tells: the argument, its type, and behind a value that is over a
    span that no activation around has as its own. -/

namespace JanetSdbus.Message
open DBus Schemes.CMemory

/-! ### Runs under the watch -/

section watched
variable {α β : Type} {st s : AppendState} {pr : Progress} {active : List Ptr} {x : Append α}
  {f : α → Append β} {V : Verdict} {W : Trail → Verdict} {Q : Trail → α → AppendState → Prop}
  {R : Trail → β → AppendState → Prop}

variable (pr active f) in
theorem watch_bind_ok {a : α} (hx : x st = .ok a s) :
    watch pr active (x >>= f) st = watch pr active (f a) s := by
  rw [watch, bind_ok hx]
  rfl

/-- A step that returns. -/
theorem watched_step {a : α} (hx : x st = .ok a s) (hf : Ends (watch pr active (f a)) s V R) :
    Ends (watch pr active (x >>= f)) st V R := by
  have hstep := watch_bind_ok pr active f hx
  cases V <;> simpa only [Ends, hstep] using hf

/-- A step that raises, but no type error. -/
theorem watched_raise {msg : String} (hx : x st = .error (.panic msg) s) (hmsg : isTypeError msg = false) :
    Ends (watch pr active (x >>= f)) st .raises R := by
  have hrun := watch_error pr active (error_bind (f := f).mpr (.inl hx))
  rw [judgement_other (by rintro _ ⟨⟩; exact hmsg)] at hrun
  exact ⟨msg, s, hrun⟩

theorem watched_panic {msg : String} (hmsg : isTypeError msg = false) :
    Ends (watch pr active (janetPanic msg : Append α)) st .raises Q := by
  have hpanic : (janetPanic msg : Append α) st = .error (.panic msg) st := rfl
  have hrun := watch_error pr active hpanic
  rw [judgement_other (by rintro _ ⟨⟩; exact hmsg)] at hrun
  exact ⟨msg, st, hrun⟩

theorem watched_bind (hx : Ends (watch pr active x) st V Q)
    (hf : ∀ t a s, Q t a s → Ends (watch pr active (f a)) s (W t) R) :
    Ends (watch pr active (x >>= f)) st (V.bind W) R := by
  have herror : ∀ e s, watch pr active x st = .error e s → watch pr active (x >>= f) st = .error e s := by
    intro e s h
    cases hrun : x st with
    | ok a s' => exact absurd ((watch_ok.mpr hrun).symm.trans h) (by simp)
    | error e' s' =>
      obtain ⟨he, rfl⟩ := EStateM.Result.error.inj ((watch_error pr active hrun).symm.trans h)
      rw [← he]
      exact watch_error pr active (error_bind.mpr (.inl hrun))
  cases V with
  | wrong =>
    obtain ⟨s, hs⟩ := hx
    exact ⟨s, herror _ _ hs⟩
  | raises =>
    obtain ⟨msg, s, hs⟩ := hx
    exact ⟨msg, s, herror _ _ hs⟩
  | done t =>
    obtain ⟨a, s, hs, hq⟩ := hx
    exact watched_step (watch_ok.mp hs) (hf t a s hq)

/-- What follows keeps the trail. -/
theorem watched_finish (hx : Ends (watch pr active x) st V Q)
    (hf : ∀ t a s, Q t a s → Ends (watch pr active (f a)) s (.done t) R) :
    Ends (watch pr active (x >>= f)) st V R := by
  have hV : V.bind Verdict.done = V := by cases V <;> rfl
  rw [← hV]
  exact watched_bind hx hf

/-- A run that raises no type error. -/
theorem Silenced.watched (hx : Silenced x) (h : Ends x st V Q) : Ends (watch pr active x) st V Q := by
  cases V with
  | wrong =>
    obtain ⟨s, hs⟩ := h
    exact ⟨s, watch_error pr active hs⟩
  | raises =>
    obtain ⟨msg, s, hs⟩ := h
    have hrun := watch_error pr active hs
    rw [judgement_other (by rintro _ ⟨⟩; exact hx st msg s hs)] at hrun
    exact ⟨msg, s, hrun⟩
  | done t =>
    obtain ⟨a, s, hs, hq⟩ := h
    exact ⟨a, s, watch_ok.mpr hs, hq⟩

end watched

/-! ### What the error context tells -/

section context
variable {α β : Type} {rt : Runtime} {st st' st₁ : AppendState} {pr : Progress} {active : List Ptr} {p : Ptr}

/-- Inside the activations on `active`. -/
structure Inside (pr : Progress) (active : List Ptr) (st : AppendState) : Prop where
  argc : st.errctx.argc = pr.argc
  depth : st.errctx.depth = active.length
  outer : active ≠ [] → st.errctx.sig₀ = some pr.start ∧ Readable st.mem st.errctx.sig₀ st.errctx.len₀
  live : ∀ q ∈ active, (st.mem.blocks q.blk).isSome = true

/-- The inner span, where it is in use, is that of `p`. -/
def Own (p : Ptr) (st : AppendState) : Prop :=
  1 < st.errctx.depth → st.errctx.sig₁ = some p ∧ Readable st.mem st.errctx.sig₁ st.errctx.len₁

/-- The inner span is none of the activations'. -/
def Foreign (active : List Ptr) (st : AppendState) : Prop := ∃ q, st.errctx.sig₁ = some q ∧ q ∉ active

/-- What any piece of the encoder leaves as it was. -/
structure Kept (st st' : AppendState) : Prop where
  mem : Extends st.mem st'.mem
  depth : st'.errctx.depth = st.errctx.depth
  argc : st'.errctx.argc = st.errctx.argc
  outer : 1 ≤ st.errctx.depth → st'.errctx.sig₀ = st.errctx.sig₀ ∧ st'.errctx.len₀ = st.errctx.len₀

theorem Kept.refl (st : AppendState) : Kept st st := ⟨.refl _, rfl, rfl, fun _ => ⟨rfl, rfl⟩⟩

theorem Kept.trans (h₁ : Kept st st₁) (h₂ : Kept st₁ st') : Kept st st' := by
  refine ⟨h₁.mem.trans h₂.mem, h₂.depth.trans h₁.depth, h₂.argc.trans h₁.argc, fun hd => ?_⟩
  obtain ⟨hs₁, hl₁⟩ := h₁.outer hd
  obtain ⟨hs₂, hl₂⟩ := h₂.outer (by rw [h₁.depth]; exact hd)
  exact ⟨hs₂.trans hs₁, hl₂.trans hl₁⟩

/-- Memory is added to, and calls are made. -/
theorem Kept.of_errctx (hm : Extends st.mem st'.mem) (he : st'.errctx = st.errctx) : Kept st st' :=
  ⟨hm, by rw [he], by rw [he], fun _ => by rw [he]; exact ⟨rfl, rfl⟩⟩

theorem Inside.blk_lt {q : Ptr} (h : Inside pr active st) (hq : q ∈ active) : q.blk < st.mem.next := by
  obtain ⟨cs, hcs⟩ := Option.isSome_iff_exists.mp (h.live q hq)
  exact Mem.lt_next hcs

theorem Inside.kept (h : Inside pr active st) (hk : Kept st st') : Inside pr active st' := by
  refine ⟨hk.argc.trans h.argc, hk.depth.trans h.depth, fun hne => ?_, fun q hq => ?_⟩
  · have hd : 1 ≤ st.errctx.depth := by
      rw [h.depth]
      exact List.length_pos_of_ne_nil hne
    obtain ⟨hs, hl⟩ := hk.outer hd
    obtain ⟨hstart, hread⟩ := h.outer hne
    rw [hs, hl]
    exact ⟨hstart, hread.mono hk.mem⟩
  · rw [hk.mem.same _ (h.blk_lt hq)]
    exact h.live q hq

theorem Own.extend (h : Own p st) (hm : Extends st.mem st'.mem) (he : st'.errctx = st.errctx) : Own p st' := by
  intro hd
  rw [he] at hd ⊢
  exact ⟨(h hd).1, (h hd).2.mono hm⟩

/-! ### Type errors -/

theorem isTypeError_extend {msg : String} (h : isTypeError msg = true) (x : String) :
    isTypeError (msg ++ x) = true := by
  have hpre := List.isPrefixOf_iff_prefix.mp h
  rw [isTypeError, String.toList_append]
  exact List.isPrefixOf_iff_prefix.mpr (hpre.trans (List.prefix_append _ _))

theorem format_cases (sig : Option Ptr) (len : ℕ) (st : AppendState) :
    (∃ text, formatErrctx sig len st = .ok text st) ∨ formatErrctx sig len st = .error .fault st := by
  cases sig with
  | none => exact .inl ⟨none, rfl⟩
  | some p =>
    rw [formatErrctx]
    by_cases hlen : len = 0
    · rw [if_pos hlen]
      exact .inl ⟨none, rfl⟩
    rw [if_neg hlen]
    obtain ⟨n, hn⟩ : ∃ n, n = if ERRCTX_MAX_SIG_LEN - 4 < len then ERRCTX_MAX_SIG_LEN - 4 else len := ⟨_, rfl⟩
    rw [← hn]
    cases hbuf : st.mem.readN p n with
    | some buf => exact .inl ⟨_, run_bind.mpr ⟨buf, st, run_access.mpr ⟨hbuf, rfl⟩, run_pure.mpr ⟨rfl, rfl⟩⟩⟩
    | none =>
      refine .inr (error_bind.mpr (.inl ?_))
      rw [access]
      exact error_bind.mpr (.inr ⟨st, st, rfl, by rw [hbuf]; rfl⟩)

/-- A type error is raised where it stands, or its text cannot be read. -/
theorem typeError_stops (rt : Runtime) (ty : String) (x : Janet) (st : AppendState) :
    ∃ e, (∀ γ : Type, (dbusTypeError rt ty x : Append γ) st = .error e st) ∧
      (e = .fault ∨ ∃ msg, e = .panic msg ∧ isTypeError msg = true) := by
  have hget : (get : Append AppendState) st = .ok st st := rfl
  have hbad : isTypeError ("bad argument #" ++ toString st.errctx.argc) = true :=
    isTypeError_extend (by decide) _
  obtain ⟨expected, hexpected⟩ : ∃ expected, expected = "expected " ++ ty ++ ", got " ++ rt.format_v x := ⟨_, rfl⟩
  rcases format_cases st.errctx.sig₀ st.errctx.len₀ st with ⟨text₀, h₀⟩ | h₀
  · cases text₀ with
    | none =>
      refine ⟨.panic ("bad argument #" ++ toString st.errctx.argc ++ " (missing D-Bus type), " ++ expected),
        fun γ => ?_, .inr ⟨_, rfl, isTypeError_extend (isTypeError_extend hbad _) _⟩⟩
      rw [dbusTypeError, bind_ok hget, bind_ok h₀, hexpected]
      rfl
    | some sigbuf =>
      have hchild : (∃ text, formatChild st.errctx st = .ok text st) ∨
          formatChild st.errctx st = .error .fault st := by
        rw [formatChild]
        split
        · exact format_cases _ _ st
        · exact .inl ⟨none, rfl⟩
      rcases hchild with ⟨text₁, h₁⟩ | h₁
      · cases text₁ with
        | none =>
          refine ⟨.panic ("bad argument #" ++ toString st.errctx.argc ++ " to D-Bus type '" ++ sigbuf ++ "', " ++
            expected), fun γ => ?_, .inr ⟨_, rfl, ?_⟩⟩
          · rw [dbusTypeError, bind_ok hget, bind_ok h₀]
            simp only
            rw [bind_ok h₁, hexpected]
            rfl
          · exact isTypeError_extend (isTypeError_extend (isTypeError_extend (isTypeError_extend hbad _) _) _) _
        | some childbuf =>
          refine ⟨.panic ("bad argument #" ++ toString st.errctx.argc ++ " to D-Bus type '" ++ childbuf ++
            "' (within '" ++ sigbuf ++ "'), " ++ expected), fun γ => ?_, .inr ⟨_, rfl, ?_⟩⟩
          · rw [dbusTypeError, bind_ok hget, bind_ok h₀]
            simp only
            rw [bind_ok h₁, hexpected]
            rfl
          · exact isTypeError_extend (isTypeError_extend (isTypeError_extend (isTypeError_extend
              (isTypeError_extend (isTypeError_extend hbad _) _) _) _) _) _
      · refine ⟨.fault, fun γ => ?_, .inl rfl⟩
        rw [dbusTypeError, bind_ok hget, bind_ok h₀]
        exact error_bind.mpr (.inl h₁)
  · refine ⟨.fault, fun γ => ?_, .inl rfl⟩
    rw [dbusTypeError, bind_ok hget]
    exact error_bind.mpr (.inl h₀)

/-- The context of an activation at work: its own span, or the argument's. -/
theorem Inside.wellPlaced (h : Inside pr active st) (hp : p ∈ active) (hown : Own p st) :
    WellPlaced pr active st := by
  refine ⟨h.argc, (h.outer (List.ne_nil_of_mem hp)).1, fun hd => ⟨p, hp, (hown hd).1, h.live p hp⟩⟩

theorem Inside.speaks (h : Inside pr active st) (hp : p ∈ active) (hown : Own p st) : Speaks st :=
  ⟨(h.outer (List.ne_nil_of_mem hp)).2, fun hd => (hown hd).2⟩

/-- A type error about the value at hand passes as well placed. -/
theorem Inside.typeError {x : Append α} {f : α → Append β} {ty : String} {v : Janet}
    {R : Trail → β → AppendState → Prop} (h : Inside pr active st) (hp : p ∈ active) (hown : Own p st)
    (hx : x st = (dbusTypeError rt ty v : Append α) st) :
    Ends (watch pr active (x >>= f)) st .raises R := by
  obtain ⟨e, hstop, he⟩ := typeError_stops rt ty v st
  obtain ⟨text, hraise⟩ : ∃ text, (dbusTypeError rt ty v : Append α) st = .error (.panic text) st :=
    (h.speaks hp hown).typeError ty v
  obtain rfl := (EStateM.Result.error.inj ((hstop α).symm.trans hraise)).1
  rcases he with hfault | ⟨msg, hmsg, htype⟩
  · exact absurd hfault (by simp)
  obtain rfl := Stop.panic.inj hmsg
  have hrun := watch_error pr active (error_bind (f := f).mpr (.inl (hx.trans (hstop α))))
  rw [judgement_typeError htype, if_pos (h.wellPlaced hp hown)] at hrun
  exact ⟨_, st, hrun⟩

/-- A type error behind a value that is over does not. -/
theorem Foreign.typeError {x : Append α} {ty : String} {v : Janet} {Q : Trail → α → AppendState → Prop}
    (hfar : Foreign active st) (hd : 1 < st.errctx.depth) (hx : x st = (dbusTypeError rt ty v : Append α) st) :
    Ends (watch pr active x) st .wrong Q := by
  obtain ⟨e, hstop, he⟩ := typeError_stops rt ty v st
  have hrun := watch_error pr active (hx.trans (hstop α))
  rcases he with rfl | ⟨msg, rfl, hmsg⟩
  · exact ⟨st, hrun⟩
  · have hnot : ¬ WellPlaced pr active st := by
      rintro ⟨_, _, hinner⟩
      obtain ⟨q, hq, hsig, _⟩ := hinner hd
      obtain ⟨r, hr, hmem⟩ := hfar
      obtain rfl := Option.some.inj (hsig.symm.trans hr)
      exact hmem hq
    rw [judgement_typeError hmsg, if_neg hnot] at hrun
    exact ⟨st, hrun⟩

end context

/-! ### Keys -/

section keys
variable {α β : Type} {rt : Runtime} {sd : SdBus} {st st' : AppendState} {pr : Progress} {active : List Ptr}
  {p q : Ptr} {s : List Char} {c : Code} {x : Janet}

theorem typeError_bind {get : Append α} {f : α → Append β} {ty : String}
    (h : get st = (dbusTypeError rt ty x : Append α) st) :
    (get >>= f) st = (dbusTypeError rt ty x : Append β) st := by
  obtain ⟨e, hstop, _⟩ := typeError_stops rt ty x st
  rw [hstop β]
  exact error_bind.mpr (.inl (h.trans (hstop α)))

theorem getter_fails {check : Janet → Option α} (h : check x = none) (ty : String) :
    getter rt check ty x st = (dbusTypeError rt ty x : Append α) st := by
  rw [getter, h]

variable (sd) in
/-- How a conversion fails: by a type error, or by an error of Janet's own. -/
theorem basic_stops (hc : st.mem.read p = some c.char) (hx : convert rt c x = none) :
    (typeFails rt c x = true ∧ ∃ ty, appendBasicType rt sd p x st = (dbusTypeError rt ty x : Append Unit) st) ∨
    (typeFails rt c x = false ∧ ∃ msg, appendBasicType rt sd p x st = .error (.panic msg) st ∧
      isTypeError msg = false) := by
  have hraise : ∀ {α : Type} {get : Append α} {f : α → Append Unit} {msg : String},
      get st = .error (.panic msg) st → (get >>= f) st = .error (.panic msg) st :=
    fun h => error_bind.mpr (.inl h)
  have hisNone : (convert rt c x).isNone = true := by rw [hx]; rfl
  rw [appendBasicType, bind_ok (cursor_ok hc), Code.ofChar_char]
  cases c with
  | boolean =>
    refine .inl ⟨hisNone, _, typeError_bind (getter_fails ?_ _)⟩
    cases x <;> first | rfl | exact absurd hx (by simp [convert])
  | double =>
    refine .inl ⟨hisNone, _, typeError_bind (getter_fails ?_ _)⟩
    cases x <;> first | rfl | exact absurd hx (by simp [convert])
  | int64 =>
    refine .inr ⟨rfl, "can not convert " ++ (rt.format_tq x ++ " to 64 bit signed integer"), hraise ?_,
      isTypeError_append rfl (by decide) _⟩
    rw [getinteger64, Option.map_eq_none_iff.mp hx, ← String.append_assoc]
    rfl
  | uint64 =>
    refine .inr ⟨rfl, "can not convert " ++ (rt.format_tq x ++ " to a 64 bit unsigned integer"), hraise ?_,
      isTypeError_append rfl (by decide) _⟩
    rw [getuinteger64, Option.map_eq_none_iff.mp hx, ← String.append_assoc]
    rfl
  | string | objectPath | signature =>
    have hnone := Option.map_eq_none_iff.mp hx
    cases x with
    | string bs =>
      rw [Janet.cstring] at hnone
      refine .inr ⟨rfl, "bytes contain embedded 0s", hraise (error_bind.mpr (.inr ⟨bs, st, ?_, ?_⟩)), by decide⟩
      · exact run_getter.mpr ⟨rfl, rfl⟩
      · rw [hnone]
        rfl
    | _ => exact .inl ⟨rfl, _, typeError_bind (typeError_bind (getter_fails rfl _))⟩
  | fd =>
    cases x with
    | file closed n =>
      cases closed with
      | true => exact .inr ⟨rfl, "bad argument to D-Bus type 'h', file is closed", hraise rfl, by decide⟩
      | false => exact absurd hx (by simp [convert, Janet.descriptor])
    | stream closed n =>
      cases closed with
      | true => exact .inr ⟨rfl, "bad argument to D-Bus type 'h', stream is closed", hraise rfl, by decide⟩
      | false => exact absurd hx (by simp [convert, Janet.descriptor])
    | _ => exact .inl ⟨rfl, _, typeError_bind rfl⟩
  | _ => exact .inl ⟨hisNone, _, typeError_bind (getter_fails (Option.map_eq_none_iff.mp hx) _)⟩

/-- The key of an entry, and the value of a basic type: well placed where the span is that of the
    dictionary or of the type, and misplaced behind a value that is over. -/
theorem key_points {later : Bool} (hs : Str st.mem q (c.char :: s)) (hin : Inside pr active st) (hp : p ∈ active)
    (hspan : if later then 1 < st.errctx.depth → Foreign active st else Own p st) {inner : Bool}
    (hinner : inner = true ↔ 1 < st.errctx.depth) :
    Ends (watch pr active (appendBasicType rt openBus q x)) st (judgeKey rt inner later (c.char :: s) x)
      fun _ _ st' => ∃ y, st' = { st with calls := st.calls ++ [basicCall y] } := by
  have hconv : converts rt (c.char :: s) x = (convert rt c x).isSome := by
    rw [converts, List.headD_cons, Code.ofChar_char, Option.bind_some]
  have hmis : mistyped rt (c.char :: s) x = typeFails rt c x := by
    rw [mistyped, List.headD_cons, Code.ofChar_char, Option.map_some, Option.getD_some]
  rw [judgeKey, hconv, hmis]
  cases hx : convert rt c x with
  | some y =>
    refine ⟨(), _, watch_ok.mpr ((run_appendBasicType hs.cons.1).mpr ⟨y, hx, by simp [openBus], rfl⟩), y, rfl⟩
  | none =>
    rw [if_neg (by simp)]
    rcases basic_stops openBus hs.cons.1 hx with ⟨hfails, ty, hrun⟩ | ⟨hpasses, msg, hrun, hmsg⟩
    · by_cases hwrong : (inner && later) = true
      · obtain ⟨hi, hl⟩ := (Bool.and_eq_true _ _).mp hwrong
        have hd := hinner.mp hi
        rw [if_pos hl] at hspan
        rw [hwrong, hfails]
        exact (hspan hd).typeError hd hrun
      · have hown : Own p st := by
          intro hd
          have hl : ¬ later = true := fun hl => hwrong (by rw [hinner.mpr hd, hl]; rfl)
          rw [if_neg hl] at hspan
          exact hspan hd
        rw [Bool.eq_false_iff.mpr hwrong, Bool.false_and, if_neg (by decide)]
        have hend : Ends (watch pr active (appendBasicType rt openBus q x >>= pure)) st .raises
            fun _ _ st' => ∃ y, st' = { st with calls := st.calls ++ [basicCall y] } := hin.typeError hp hown hrun
        rwa [bind_pure] at hend
    · rw [hpasses, Bool.and_false, if_neg (by decide)]
      have hend : Ends (watch pr active (appendBasicType rt openBus q x >>= pure)) st .raises
          fun _ _ st' => ∃ y, st' = { st with calls := st.calls ++ [basicCall y] } := watched_raise hrun hmsg
      rwa [bind_pure] at hend

end keys

/-! ### Loops -/

section loops
variable {rt : Runtime} {st st' st₁ st₂ : AppendState} {pr : Progress} {active : List Ptr} {p q cur : Ptr}
  {s sig : List Char} {rec : Ptr → Janet → Append Ptr} {verdict : List Char → Janet → Verdict}

/-- The inner span has moved into block `b`, or into a block that was made behind `st`. -/
def Strayed (st : AppendState) (b : ℕ) (st' : AppendState) : Prop :=
  ∃ r, st'.errctx.sig₁ = some r ∧ (r.blk = b ∨ st.mem.next ≤ r.blk)

/-- What an activation leaves behind. -/
structure Passed (st : AppendState) (p : Ptr) (s : List Char) (t : Trail) (q : Ptr) (st' : AppendState) :
    Prop where
  ended : t = .released
  moved : s ≠ [] → ∃ k, stride s = .ok k ∧ q = p.add k
  kept : Kept st st'
  strayed : 1 ≤ st.errctx.depth → Strayed st p.blk st'

/-- An activation inside those on `active` ends as the verdict says, and raises no type error that is
    not judged. -/
def Points (pr : Progress) (active : List Ptr) (rec : Ptr → Janet → Append Ptr)
    (verdict : List Char → Janet → Verdict) (v : Janet) : Prop :=
  (∀ p, Silenced (rec p v)) ∧ ∀ {st p s}, Str st.mem p s → Inside pr active st → (active = [] → p = pr.start) →
    Ends (rec p v) st (verdict s v) (Passed st p s)

theorem Strayed.base {b : ℕ} (h : Strayed st₁ b st') (hm : st.mem.next ≤ st₁.mem.next) : Strayed st b st' := by
  obtain ⟨r, hr, hb⟩ := h
  exact ⟨r, hr, hb.imp id (Nat.le_trans hm)⟩

/-- What a loop over the block `b` leaves behind: nothing has happened, or a value is over. -/
def Behind (st : AppendState) (b : ℕ) (st' : AppendState) : Prop := st' = st ∨ Strayed st b st'

theorem Behind.after {b : ℕ} (h : Strayed st b st₁) (hm : st.mem.next ≤ st₁.mem.next) (hb : Behind st₁ b st') :
    Strayed st b st' := by
  rcases hb with rfl | hs
  · exact h
  · exact hs.base hm

theorem Inside.pos (h : Inside pr active st) (hne : active ≠ []) : 1 ≤ st.errctx.depth := by
  rw [h.depth]
  exact List.length_pos_of_ne_nil hne

theorem silenced_fields (hrec : ∀ p v, Silenced (rec p v)) (signature : Ptr) : ∀ (cur : Ptr) (xs : List Janet),
    Silenced (appendFields rec signature cur xs)
  | cur, [] => silenced_pure cur
  | cur, x :: xs => by
    refine (silenced_access _).bind fun ch => ?_
    refine (silenced_panicIf _ rfl (by decide) signature).bind fun _ => (silenced_pure ()).bind fun _ => ?_
    refine (hrec cur x).bind fun q => (silenced_next q).bind fun q => ?_
    exact silenced_fields hrec signature q xs

/-- The fields of a struct. -/
theorem fields_points (hne : active ≠ []) : ∀ {xs : List Janet} {s : List Char} {st : AppendState} {cur : Ptr}
    {t₀ : Trail}, (∀ x ∈ xs, Points pr active rec verdict x) → Str st.mem cur s → Str st.mem q sig →
    Inside pr active st → Ends (appendFields rec q cur xs) st (judgeLoop verdict s xs t₀)
      fun _ cur' st' => Kept st st' ∧ Str st'.mem cur' (leftover s xs) ∧ Behind st cur.blk st'
  | [], s, st, cur, t₀, _, hs, _, _ => ⟨cur, st, rfl, .refl st, hs, .inl rfl⟩
  | x :: xs, s, st, cur, t₀, hrec, hs, hsig, hin => by
    rw [appendFields, appendLoop, judgeLoop]
    refine .step (cursor_ok hs.read) ?_
    by_cases hempty : s = []
    · subst hempty
      rw [if_pos rfl]
      obtain ⟨msg, hraise⟩ := panicIf_raises (c := ([] : List Char).headD '\x00' = '\x00') rfl
        "Excessive arguments for struct signature: " hsig
      exact .raise hraise
    rw [if_neg hempty]
    have hhead : s.headD '\x00' ≠ '\x00' := fun heq => hempty (hs.eq_nil (by rw [hs.read, heq]))
    refine .step (panicIf_ok hhead _) (.step rfl ?_)
    refine ((hrec x (by simp)).2 hs hin fun h => absurd h hne).bind fun t q' st₁ hpass => ?_
    obtain ⟨k, hk, rfl⟩ := hpass.moved hempty
    have hrest : Str st₁.mem (cur.add (k + 1)) (s.drop (k + 1)) :=
      str_drop (hs.mono hpass.kept.mem) (stride_lt hempty hk)
    have hnext : next (cur.add k) st₁ = .ok (cur.add (k + 1)) st₁ := by
      have hread : st₁.mem.read ((cur.add k).add 1) = some ((s.drop (k + 1)).headD '\x00') := by
        rw [Ptr.add_add]
        exact hrest.read
      exact run_next.mpr ⟨⟨_, hread⟩, (Ptr.add_add _ _ _).symm, rfl⟩
    simp only [hk]
    refine .step hnext ((fields_points hne (fun y hy => hrec y (List.mem_cons_of_mem _ hy)) hrest
      (hsig.mono hpass.kept.mem) (hin.kept hpass.kept)).mono fun t' q' st₂ h => ?_)
    obtain ⟨hk₂, hq, hbehind⟩ := h
    have hstray := hpass.strayed (hin.pos hne)
    refine ⟨hpass.kept.trans hk₂, by rw [leftover, hk]; exact hq, .inr ?_⟩
    exact Behind.after hstray hpass.kept.mem.next_le hbehind

theorem silenced_elements (hrec : ∀ p v, Silenced (rec p v)) (q : Ptr) : ∀ xs : List Janet,
    Silenced (appendElements rec q xs)
  | [] => silenced_pure ()
  | x :: xs => (hrec q x).bind fun _ => silenced_elements hrec q xs

/-- The elements of an array. -/
theorem elements_points (hne : active ≠ []) : ∀ {xs : List Janet} {st : AppendState} {t₀ : Trail},
    (∀ x ∈ xs, Points pr active rec verdict x) → Str st.mem q s → Inside pr active st →
    Ends (appendElements rec q xs) st (judgeElements verdict s xs t₀)
      fun _ _ st' => Kept st st' ∧ Behind st q.blk st'
  | [], st, t₀, _, _, _ => ⟨(), st, rfl, .refl st, .inl rfl⟩
  | x :: xs, st, t₀, hrec, hs, hin => by
    rw [appendElements, judgeElements]
    refine ((hrec x (by simp)).2 hs hin fun h => absurd h hne).bind fun t _ st₁ hpass => ?_
    refine (elements_points hne (fun y hy => hrec y (List.mem_cons_of_mem _ hy)) (hs.mono hpass.kept.mem)
      (hin.kept hpass.kept)).mono fun t' _ st₂ h => ?_
    have hstray := hpass.strayed (hin.pos hne)
    exact ⟨hpass.kept.trans h.1, .inr (Behind.after hstray hpass.kept.mem.next_le h.2)⟩

theorem kept_call (c : Call) (st : AppendState) : Kept st { st with calls := st.calls ++ [c] } :=
  .of_errctx (.refl _) rfl

/-- The entries of a dictionary, whose copy `q` is younger than the activations. -/
theorem entries_points {c : Code} {inner : Bool} (hp : p ∈ active) (hyoung : ∀ r ∈ active, r.blk < q.blk) :
    ∀ {kvs : List (Janet × Janet)} {st : AppendState} {t₀ : Trail} {later : Bool},
    (∀ kv ∈ kvs, Points pr active rec verdict kv.2) → Str st.mem q (c.char :: s) → Inside pr active st →
    (inner = true ↔ 1 < st.errctx.depth) →
    (if later then 1 < st.errctx.depth → Foreign active st else Own p st) →
    Ends (watch pr active (appendEntries rt openBus rec q kvs)) st
      (judgeEntries rt verdict inner (c.char :: s) kvs t₀ later)
      fun _ _ st' => Kept st st' ∧ Behind st q.blk st'
  | [], st, t₀, _, _, _, _, _, _ => ⟨(), st, rfl, .refl st, .inl rfl⟩
  | (key, value) :: kvs, st, t₀, later, hrec, hs, hin, hinner, hspan => by
    have hne := List.ne_nil_of_mem hp
    rw [appendEntries, judgeEntries]
    refine watched_step (run_cstr.mpr ⟨hs.cstr, rfl⟩) (watched_step (call_ok rt _ st) ?_)
    obtain ⟨st₀, hst₀⟩ : ∃ st₀ : AppendState, st₀ = { st with
        calls := st.calls ++ [.openContainer .dictEntry (c.char :: s)] } := ⟨_, rfl⟩
    have hk₀ : Kept st st₀ := by
      rw [hst₀]
      exact kept_call _ _
    have hm₀ : st₀.mem = st.mem := by rw [hst₀]
    have he₀ : st₀.errctx = st.errctx := by rw [hst₀]
    have hs₀ : Str st₀.mem q (c.char :: s) := hs.mono hk₀.mem
    have hspan₀ : if later then 1 < st₀.errctx.depth → Foreign active st₀ else Own p st₀ := by
      cases later with
      | true =>
        intro hd
        rw [he₀] at hd
        obtain ⟨r, hr, hmem⟩ := hspan hd
        exact ⟨r, by rw [he₀]; exact hr, hmem⟩
      | false =>
        have hown : Own p st₀ := Own.extend hspan hk₀.mem he₀
        exact hown
    rw [← hst₀]
    refine watched_bind (key_points hs₀ (hin.kept hk₀) hp hspan₀ (by rw [he₀]; exact hinner)) fun _ _ st₁ hst₁ => ?_
    obtain ⟨y, rfl⟩ := hst₁
    obtain ⟨st₁, hst₁⟩ : ∃ st₁ : AppendState, st₁ = { st₀ with calls := st₀.calls ++ [basicCall y] } := ⟨_, rfl⟩
    have hk₁ : Kept st st₁ := by
      rw [hst₁]
      exact hk₀.trans (kept_call _ _)
    rw [← hst₁]
    have hs₁ := hs.mono hk₁.mem
    have hvalue := (hrec (key, value) (by simp)).2 hs₁.cons.2 (hin.kept hk₁) fun h => absurd h hne
    refine watched_step (run_next.mpr ⟨⟨_, hs₁.cons.2.read⟩, rfl, rfl⟩) ?_
    refine watched_bind (((hrec (key, value) (by simp)).1 _).watched hvalue) fun t _ st₂ hpass => ?_
    have hk₂ := hk₁.trans hpass.kept
    have hk₃ := hk₂.trans (kept_call .closeContainer st₂)
    have hstray : Strayed st q.blk { st₂ with calls := st₂.calls ++ [.closeContainer] } :=
      (hpass.strayed ((hin.kept hk₁).pos hne)).base hk₁.mem.next_le
    have hfar : Foreign active { st₂ with calls := st₂.calls ++ [.closeContainer] } := by
      obtain ⟨r, hr, hblk⟩ := hstray
      refine ⟨r, hr, fun hmem => ?_⟩
      have hold := hyoung r hmem
      have hlive := hin.blk_lt hmem
      omega
    refine watched_step (call_ok rt _ st₂) ?_
    rw [hpass.ended]
    refine (entries_points hp hyoung (fun kv hkv => hrec kv (List.mem_cons_of_mem _ hkv)) (hs.mono hk₃.mem)
      (hin.kept hk₃) (by rw [hk₃.depth]; exact hinner) (by rw [if_pos (by decide)]; exact fun _ => hfar)).mono
      fun t' _ st₃ h => ?_
    exact ⟨hk₃.trans h.1, .inr (Behind.after hstray hk₃.mem.next_le h.2)⟩

end loops

/-! ### Branches -/

section branches
variable {α : Type} {rt : Runtime} {st st' st₁ st₂ : AppendState} {pr : Progress} {active : List Ptr} {p q : Ptr}
  {s u w r : List Char} {v : Janet} {inner : Bool} {rec : Ptr → Janet → Append Ptr}
  {verdict : List Char → Janet → Verdict}

/-- An activation at work on the type at `p`. -/
structure Working (pr : Progress) (active : List Ptr) (p : Ptr) (st : AppendState) : Prop where
  inside : Inside pr active st
  top : p ∈ active
  own : Own p st

theorem Working.extend (h : Working pr active p st) (hm : Extends st.mem st'.mem) (he : st'.errctx = st.errctx) :
    Working pr active p st' :=
  ⟨h.inside.kept (.of_errctx hm he), h.top, h.own.extend hm he⟩

theorem Working.ne_nil (h : Working pr active p st) : active ≠ [] := List.ne_nil_of_mem h.top

/-- The span is its own, which lies in its block. -/
theorem Working.strayed (h : Working pr active p st) (he : st'.errctx = st.errctx) (hd : 1 < st.errctx.depth) :
    Strayed st p.blk st' := ⟨p, by rw [he]; exact (h.own hd).1, .inl rfl⟩

/-- What a branch leaves behind. -/
structure Stayed (st : AppendState) (p : Ptr) (st' : AppendState) : Prop where
  kept : Kept st st'
  strayed : 1 < st.errctx.depth → Strayed st p.blk st'

/-- A failed check of a container's value passes as well placed. -/
theorem Working.getter {check : Janet → Option α} {f : α → Append Ptr} {R : Trail → Ptr → AppendState → Prop}
    (h : Working pr active p st) (hx : check v = none) (ty : String) :
    Ends (watch pr active (Message.getter rt check ty v >>= f)) st .raises R :=
  h.inside.typeError h.top h.own (getter_fails hx ty)

variable (rt) in
/-- The last steps of a container: closing it and releasing the copy `q`. -/
theorem close_points (h : Working pr active p st) (hm₁ : Extends st.mem st₁.mem) (he₁ : st₁.errctx = st.errctx)
    (hloop : Kept st₁ st₂) (hq : Str st₂.mem q u) (hoff : q.off = 0) (hyoung : st.mem.next ≤ q.blk)
    (hbehind : Behind st₁ q.blk st₂) : ∃ st₃ st₄, callSdBusFunc rt openBus .closeContainer st₂ = .ok () st₃ ∧
    janetSfree q st₃ = .ok () st₄ ∧ Stayed st p st₄ := by
  have hq₃ : Str ({ st₂ with calls := st₂.calls ++ [.closeContainer] } : AppendState).mem q u := hq
  obtain ⟨m, hfree, hnext, hblocks⟩ := copy_freed hq₃ hoff
  have hext : Extends st.mem m := by
    refine ⟨by rw [hnext]; exact (hm₁.trans hloop.mem).next_le, fun c hc => ?_⟩
    rw [hblocks, Function.update_of_ne (by omega)]
    exact (hm₁.trans hloop.mem).same c hc
  refine ⟨_, _, call_ok rt _ _, hfree, ⟨hext, ?_, ?_, fun hd => ?_⟩, fun hd => ?_⟩
  · exact hloop.depth.trans (by rw [he₁])
  · exact hloop.argc.trans (by rw [he₁])
  · obtain ⟨h₁, h₂⟩ := hloop.outer (by rw [he₁]; exact hd)
    rw [he₁] at h₁ h₂
    exact ⟨h₁, h₂⟩
  · rcases hbehind with rfl | ⟨r, hr, hblk⟩
    · exact h.strayed he₁ hd
    · have hle := hm₁.next_le
      exact ⟨r, hr, .inr (by omega)⟩

/-- The same run, begun elsewhere. -/
theorem watched_of_eq {x y : Append α} {V : Verdict} {Q : Trail → α → AppendState → Prop} (hxy : x st = y st₁)
    (h : Ends (watch pr active y) st₁ V Q) : Ends (watch pr active x) st V Q := by
  have hwatch : watch pr active x st = watch pr active y st₁ := by rw [watch, watch, hxy]
  cases V <;> simpa only [Ends, hwatch] using h

/-- A string that names itself in the error. -/
theorem watched_panicIf {β : Type} {d : Prop} [Decidable d] (hd : d) {text : String} {c : Char}
    (hhead : text.toList.head? = some c) (hc : c ≠ 'b') (hs : Str st.mem p s) {f : Unit → Append β}
    {R : Trail → β → AppendState → Prop} :
    Ends (watch pr active (panicIf d (withStr text p) >>= f)) st .raises R := by
  obtain ⟨msg, hraise⟩ := panicIf_raises hd text hs
  exact watched_raise hraise (silenced_panicIf d hhead hc p st msg st hraise)

/-- A scanning function gives up. -/
theorem watched_scan {β : Type} {f : List Char → Except String ℕ} {msg : String} (hs : Str st.mem p s)
    (hf : f s = .error msg) (hmsg : isTypeError msg = false) {g : ℕ → Append β}
    {R : Trail → β → AppendState → Prop} : Ends (watch pr active (scan f p >>= g)) st .raises R :=
  watched_raise (scan_raises hs hf) hmsg

theorem matchBracket_error {opn cls : Char} {s : List Char} {msg : String}
    (h : matchBracket opn cls s = .error msg) : isTypeError msg = false := by
  rw [matchBracket] at h
  split at h
  · exact absurd h (by simp)
  · rw [← Except.error.inj h, String.append_assoc]
    exact isTypeError_append rfl (by decide) _

theorem findSubtype_error : ∀ {s : List Char} {msg : String}, findSubtype s = .error msg → isTypeError msg = false
  | [], msg, h => by
    rw [← Except.error.inj h]
    decide
  | ch :: s, msg, h => by
    rw [findSubtype] at h
    split at h
    · cases hs : findSubtype s with
      | error text =>
        rw [hs] at h
        rw [← Except.error.inj h]
        exact findSubtype_error hs
      | ok n => rw [hs] at h; exact absurd h (by simp [Except.map])
    · split at h
      · exact matchBracket_error h
      · split at h
        · exact matchBracket_error h
        · exact absurd h (by simp)

/-- Behind the copy of a struct's signature. -/
theorem structFrom_points (h : Working pr active p st) (hm₁ : Extends st.mem st₁.mem)
    (he₁ : st₁.errctx = st.errctx) (hq : Str st₁.mem q u) (hoff : q.off = 0) (hyoung : st.mem.next ≤ q.blk)
    (hrec : ∀ x, x.depth < v.depth → Points pr active rec verdict x)
    (hsil : ∀ p v, Silenced (rec p v)) {last : Ptr} :
    Ends (watch pr active (do structFrom rt openBus rec v u q; pure last)) st₁
      (match janetIndexedView v with
        | none => .raises
        | some xs => if xs.length = 0 then .raises else judgeFields verdict u xs)
      fun _ cur st' => cur = last ∧ Stayed st p st' := by
  simp only [structFrom, bind_assoc]
  refine watched_step (call_ok rt _ st₁) ?_
  obtain ⟨st₂, hst₂⟩ : ∃ st₂ : AppendState, st₂ = { st₁ with calls := st₁.calls ++ [.openContainer .struct u] } :=
    ⟨_, rfl⟩
  rw [← hst₂]
  have hm₂ : st₂.mem = st₁.mem := by rw [hst₂]
  have he₂ : st₂.errctx = st.errctx := by rw [hst₂]; exact he₁
  have hext : Extends st.mem st₂.mem := by rw [hm₂]; exact hm₁
  have hq₂ : Str st₂.mem q u := by rw [hm₂]; exact hq
  have hwork := h.extend hext he₂
  cases hxs : janetIndexedView v with
  | none => exact hwork.getter hxs "indexed"
  | some xs =>
    refine watched_step (getter_ok hxs _) ?_
    by_cases hempty : xs.length = 0
    · simp only [if_pos hempty]
      have hraise : panicIf (xs.length = 0) (pure "Empty struct: missing arguments") st₂ =
          .error (.panic "Empty struct: missing arguments") st₂ := by
        rw [panicIf, if_pos hempty]
        rfl
      exact watched_raise hraise (by decide)
    simp only [if_neg hempty]
    refine watched_step (panicIf_ok hempty _) ?_
    rw [judgeFields]
    have hfields : Ends (appendFields rec q q xs) st₂ (judgeLoop verdict u xs .own)
        fun _ cur st' => Kept st₂ st' ∧ Str st'.mem cur (leftover u xs) ∧ Behind st₂ q.blk st' :=
      fields_points h.ne_nil (fun x hx => hrec x (depth_indexed hxs hx)) hq₂ hq₂ hwork.inside
    refine watched_bind ((silenced_fields hsil q q xs).watched hfields) fun t cur st₃ hloop => ?_
    obtain ⟨hk, hcur, hbehind⟩ := hloop
    have hq₃ := hq₂.mono hk.mem
    refine watched_step (cursor_ok hcur.read) ?_
    by_cases hrest : leftover u xs = []
    · rw [if_pos hrest]
      refine watched_step (panicIf_ok (by rw [hrest]; simp) _) ?_
      obtain ⟨st₄, st₅, h₄, h₅, hstay⟩ := close_points rt h hext he₂ hk hq₃ hoff hyoung hbehind
      exact watched_step h₄ (watched_step h₅ ⟨_, st₅, rfl, rfl, hstay⟩)
    · rw [if_neg hrest]
      have hne : (leftover u xs).headD '\x00' ≠ '\x00' := fun heq =>
        hrest (hcur.eq_nil (by rw [hcur.read, heq]))
      exact watched_panicIf hne rfl (by decide) hq₃

theorem struct_points (h : Working pr active p st) (hs : Str st.mem p ('(' :: w))
    (hrec : ∀ x, x.depth < v.depth → Points pr active rec verdict x) (hsil : ∀ p v, Silenced (rec p v)) :
    Ends (watch pr active (appendStructType rt openBus rec p v)) st (judgeStruct verdict ('(' :: w) v)
      fun _ q st' => (∃ k, stride ('(' :: w) = .ok k ∧ q = p.add k) ∧ Stayed st p st' := by
  rw [judgeStruct]
  cases hm : matchBracket '(' ')' ('(' :: w) with
  | error msg =>
    rw [appendStructType]
    exact watched_scan hs hm (matchBracket_error hm)
  | ok n =>
    simp only
    by_cases hn : n < 2
    · rw [if_pos hn, appendStructType]
      refine watched_step (scan_ok hs hm) ?_
      exact watched_panicIf hn rfl (by decide) hs
    rw [if_neg hn]
    obtain ⟨u, r, rfl, rfl⟩ := matchBracket_sound hm
    have hu : u ≠ [] := fun hnil => hn (by rw [hnil]; decide)
    obtain ⟨q, st₁, hq, hoff, hyoung, hext, he, _, _, hrun⟩ := struct_copies rt openBus rec hu hs hm v
    rw [inside_append]
    refine watched_of_eq hrun ((structFrom_points h hext he hq hoff hyoung hrec hsil).mono fun t cur st' hend => ?_)
    exact ⟨⟨_, by rw [stride_struct, hm], hend.1⟩, hend.2⟩

/-- Behind the copy of a dictionary's signature. -/
theorem dictFrom_points {c : Code} (h : Working pr active p st) (hm₁ : Extends st.mem st₁.mem)
    (he₁ : st₁.errctx = st.errctx) (hq : Str st₁.mem q ('{' :: (c.char :: u ++ ['}']))) (hoff : q.off = 0)
    (hyoung : st.mem.next ≤ q.blk) (hinner : inner = true ↔ 1 < st.errctx.depth)
    (hrec : ∀ x, x.depth < v.depth → Points pr active rec verdict x) {last : Ptr} :
    Ends (watch pr active (do dictFrom rt openBus rec v ('{' :: (c.char :: u ++ ['}'])) q; pure last)) st₁
      (match janetDictionaryView v with
        | none => .raises
        | some kvs => judgeEntries rt verdict inner (c.char :: u) kvs .own false)
      fun _ cur st' => cur = last ∧ Stayed st p st' := by
  simp only [dictFrom, bind_assoc]
  refine watched_step (call_ok rt _ st₁) ?_
  obtain ⟨st₂, hst₂⟩ : ∃ st₂ : AppendState, st₂ = { st₁ with
      calls := st₁.calls ++ [.openContainer .array ('{' :: (c.char :: u ++ ['}']))] } := ⟨_, rfl⟩
  have hext₂ : Extends st₁.mem st₂.mem := by rw [hst₂]; exact .refl _
  have he₂ : st₂.errctx = st.errctx := by rw [hst₂]; exact he₁
  rw [← hst₂]
  obtain ⟨st₃, hstrip, hq₃, hext₃, _, he₃⟩ := strip_copy hq hoff hyoung hm₁ hext₂
  have he : st₃.errctx = st.errctx := he₃.trans he₂
  have hwork := h.extend hext₃ he
  refine watched_step hstrip ?_
  cases hkvs : janetDictionaryView v with
  | none => exact hwork.getter hkvs "dictionary"
  | some kvs =>
    refine watched_step (getter_ok hkvs _) ?_
    have hold : ∀ r ∈ active, r.blk < q.blk := fun r hr => Nat.lt_of_lt_of_le (h.inside.blk_lt hr) hyoung
    refine watched_finish (entries_points h.top hold (fun kv hkv => hrec kv.2 (depth_dictionary hkvs hkv)) hq₃
      hwork.inside (by rw [he]; exact hinner) (by rw [if_neg (by decide)]; exact hwork.own)) fun t _ st₄ hloop => ?_
    obtain ⟨st₅, st₆, h₅, h₆, hstay⟩ :=
      close_points rt h hext₃ he hloop.1 (hq₃.mono hloop.1.mem) hoff hyoung hloop.2
    exact watched_step h₅ (watched_step h₆ ⟨_, st₆, rfl, rfl, hstay⟩)

/-- A dictionary, from its brace on; `p` is where the array stands. -/
theorem dict_points (h : Working pr active p st) (hs : Str st.mem (p.add 1) ('{' :: w))
    (hinner : inner = true ↔ 1 < st.errctx.depth)
    (hrec : ∀ x, x.depth < v.depth → Points pr active rec verdict x) :
    Ends (watch pr active (appendDictType rt openBus rec (p.add 1) v)) st (judgeDict rt verdict inner ('{' :: w) v)
      fun _ q st' => (∃ n, matchBracket '{' '}' ('{' :: w) = .ok n ∧ q = (p.add 1).add n) ∧ Stayed st p st' := by
  rw [judgeDict]
  cases hm : matchBracket '{' '}' ('{' :: w) with
  | error msg =>
    rw [appendDictType]
    exact watched_scan hs hm (matchBracket_error hm)
  | ok n =>
    simp only
    by_cases hn : n < 3
    · rw [if_pos hn, appendDictType]
      refine watched_step (scan_ok hs hm) ?_
      exact watched_panicIf hn rfl (by decide) hs
    rw [if_neg hn]
    obtain ⟨u, r, rfl, rfl⟩ := matchBracket_sound hm
    rw [inside_append]
    obtain ⟨k, u, rfl⟩ : ∃ k u', u = k :: u' := by
      cases u with
      | nil => exact absurd hn (by simp)
      | cons k u => exact ⟨k, u, rfl⟩
    have hu : u ≠ [] := fun hnil => hn (by rw [hnil]; simp)
    obtain ⟨q, st₁, hq, hoff, hyoung, hext, he, _, _, hrun⟩ := dict_opens rt openBus rec hu hs hm v
    refine watched_of_eq hrun ?_
    rw [bind_assoc, List.headD_cons]
    by_cases hkey : isBasicType k = false
    · rw [if_pos hkey]
      exact watched_panicIf hkey rfl (by decide) hq
    rw [if_neg hkey]
    obtain ⟨c, rfl⟩ : ∃ c : Code, c.char = k := by
      rcases isBasicType_iff.mp (Bool.not_eq_false _ ▸ hkey) with hc | rfl
      · exact hc
      · exact absurd (List.mem_cons_of_mem _ List.mem_cons_self) hs.1
    refine watched_step (panicIf_ok hkey _) ?_
    refine (dictFrom_points h hext he hq hoff hyoung hinner hrec).mono fun t cur st' hend => ?_
    exact ⟨⟨_, rfl, hend.1⟩, hend.2⟩

/-- Behind the copy of an array's element type. -/
theorem arrayFrom_points (h : Working pr active p st) (hm₁ : Extends st.mem st₁.mem)
    (he₁ : st₁.errctx = st.errctx) (hq : Str st₁.mem q u) (hoff : q.off = 0) (hyoung : st.mem.next ≤ q.blk)
    (hrec : ∀ x, x.depth < v.depth → Points pr active rec verdict x)
    (hsil : ∀ p v, Silenced (rec p v)) {last : Ptr} :
    Ends (watch pr active (do arrayFrom rt openBus rec v u q; pure last)) st₁
      (match janetIndexedView v with
        | none => .raises
        | some xs => judgeElements verdict u xs .own)
      fun _ cur st' => cur = last ∧ Stayed st p st' := by
  simp only [arrayFrom, bind_assoc]
  refine watched_step (call_ok rt _ st₁) ?_
  obtain ⟨st₂, hst₂⟩ : ∃ st₂ : AppendState, st₂ = { st₁ with calls := st₁.calls ++ [.openContainer .array u] } :=
    ⟨_, rfl⟩
  rw [← hst₂]
  have hm₂ : st₂.mem = st₁.mem := by rw [hst₂]
  have he₂ : st₂.errctx = st.errctx := by rw [hst₂]; exact he₁
  have hext : Extends st.mem st₂.mem := by rw [hm₂]; exact hm₁
  have hq₂ : Str st₂.mem q u := by rw [hm₂]; exact hq
  have hwork := h.extend hext he₂
  cases hxs : janetIndexedView v with
  | none => exact hwork.getter hxs "indexed"
  | some xs =>
    refine watched_step (getter_ok hxs _) ?_
    have helements : Ends (appendElements rec q xs) st₂ (judgeElements verdict u xs .own)
        fun _ _ st' => Kept st₂ st' ∧ Behind st₂ q.blk st' :=
      elements_points h.ne_nil (fun x hx => hrec x (depth_indexed hxs hx)) hq₂ hwork.inside
    refine watched_finish ((silenced_elements hsil q xs).watched helements) fun t _ st₃ hloop => ?_
    obtain ⟨st₄, st₅, h₄, h₅, hstay⟩ :=
      close_points rt h hext he₂ hloop.1 (hq₂.mono hloop.1.mem) hoff hyoung hloop.2
    exact watched_step h₄ (watched_step h₅ ⟨_, st₅, rfl, rfl, hstay⟩)

theorem array_points (h : Working pr active p st) (hs : Str st.mem p ('a' :: w))
    (hinner : inner = true ↔ 1 < st.errctx.depth)
    (hrec : ∀ x, x.depth < v.depth → Points pr active rec verdict x) (hsil : ∀ p v, Silenced (rec p v)) :
    Ends (watch pr active (appendArrayType rt openBus rec p v)) st (judgeArray rt verdict inner ('a' :: w) v)
      fun _ q st' => (∃ k, stride ('a' :: w) = .ok k ∧ q = p.add k) ∧ Stayed st p st' := by
  have hw := hs.cons.2
  have hpeek : peek p st = .ok (w.headD '\x00') st := run_peek.mpr ⟨hw.read, rfl⟩
  have hnext : next p st = .ok (p.add 1) st := run_next.mpr ⟨⟨_, hw.read⟩, rfl, rfl⟩
  rw [judgeArray, List.tail_cons]
  by_cases hbrace : w.headD '\x00' = '{'
  · rw [appendArrayType, if_pos hbrace]
    refine watched_step hpeek ?_
    rw [if_pos hbrace]
    obtain ⟨u, rfl⟩ : ∃ u, w = '{' :: u := by
      cases w with
      | nil => exact absurd hbrace (by decide)
      | cons c u => exact ⟨u, by rw [← hbrace]; rfl⟩
    refine watched_step hnext ((dict_points h hw hinner hrec).mono fun t q st' hend => ?_)
    obtain ⟨⟨n, hn, rfl⟩, hstay⟩ := hend
    refine ⟨⟨1 + n, ?_, Ptr.add_add p 1 n⟩, hstay⟩
    rw [stride_array, findSubtype, if_pos rfl, findSubtype, if_neg (by decide), if_pos rfl, hn]
    rfl
  rw [if_neg hbrace]
  by_cases hbyte : w.headD '\x00' = 'y'
  · rw [appendArrayType, if_pos hbyte]
    refine watched_step hpeek ?_
    rw [if_neg hbrace, if_pos hbyte]
    obtain ⟨u, rfl⟩ : ∃ u, w = 'y' :: u := by
      cases w with
      | nil => exact absurd hbyte (by decide)
      | cons c u => exact ⟨u, by rw [← hbyte]; rfl⟩
    refine watched_step hnext ?_
    cases hbs : janetBytesView v with
    | none => exact h.getter hbs "bytes"
    | some bs =>
      refine watched_step (getter_ok hbs _) (watched_step (call_ok rt _ st) ⟨_, _, rfl, ⟨1, rfl, rfl⟩, ?_, ?_⟩)
      · exact kept_call _ _
      · exact h.strayed rfl
  rw [if_neg hbyte]
  cases hm : findSubtype ('a' :: w) with
  | error msg =>
    rw [appendArrayType]
    refine watched_step hpeek ?_
    rw [if_neg hbrace, if_neg hbyte]
    exact watched_scan hs hm (findSubtype_error hm)
  | ok n =>
    -- the element type is the front of what follows the `a`
    obtain ⟨x, last, r, hend, hlen⟩ := findSubtype_sound hm
    obtain ⟨u, z, rfl, rfl⟩ : ∃ u z, w = u ++ z ∧ n = u.length := by
      have htotal := congrArg List.length hend
      simp only [List.length_cons, List.length_append] at htotal
      exact ⟨w.take n, w.drop n, (List.take_append_drop _ _).symm, by rw [List.length_take]; omega⟩
    obtain ⟨q, st₁, hq, hoff, hyoung, hext, he, _, _, hrun⟩ :=
      array_copies rt openBus rec hs hbrace hbyte hm hend hlen.symm v
    simp only [List.take_left]
    refine watched_of_eq hrun ((arrayFrom_points h hext he hq hoff hyoung hrec hsil).mono fun t cur st' hend => ?_)
    exact ⟨⟨_, by rw [stride_array, hm], hend.1⟩, hend.2⟩

theorem variant_points (h : Working pr active p st) (hrec : ∀ x, x.depth < v.depth → Points pr active rec verdict x)
    (hsil : ∀ p v, Silenced (rec p v)) :
    Ends (watch pr active (appendVariantType rt openBus rec p v)) st (judgeVariant verdict v)
      fun _ q st' => q = p ∧ Stayed st p st' := by
  rw [appendVariantType]
  cases v with
  | tuple xs =>
    have htuple : gettuple rt (.tuple xs) st = .ok xs st := run_getter.mpr ⟨rfl, rfl⟩
    refine watched_step htuple ?_
    rcases xs with _ | ⟨sig, _ | ⟨x, _ | ⟨y, ys⟩⟩⟩
    · exact watched_panic (by decide)
    · rw [judgeVariant_other (by simp)]
      exact watched_panic (by decide)
    · cases sig with
      | string bs =>
        rw [judgeVariant]
        by_cases hnul : 0 ∈ bs
        · have hnone : janetGetcbytes bs = none := dif_neg (not_not.mpr hnul)
          rw [if_pos hnul]
          simp only [hnone]
          exact watched_panic (by decide)
        have hsome : janetGetcbytes bs = some ⟨bs, hnul⟩ := dif_pos hnul
        have hchars : bs.map Char.ofUInt8 = chars bs := rfl
        have hstr := alloc_str (m := st.mem) (r := []) (fun h => hnul (nul_mem_chars.mp h))
        have hext := alloc_extends st.mem (chars bs ++ ['\x00'])
        rw [if_neg hnul]
        simp only [hsome, hchars]
        obtain ⟨q, hq⟩ : ∃ q, q = (st.mem.alloc (chars bs ++ ['\x00'])).1 := ⟨_, rfl⟩
        obtain ⟨st₁, hst₁⟩ : ∃ st₁ : AppendState, st₁ = { st with
          mem := (st.mem.alloc (chars bs ++ ['\x00'])).2 } := ⟨_, rfl⟩
        have halloc : allocate (·.alloc (chars bs ++ ['\x00'])) st = .ok q st₁ :=
          run_allocate.mpr ⟨hq, hst₁⟩
        have hstr₁ : Str st₁.mem q (chars bs) := by rw [hst₁, hq]; exact hstr
        have hk₁ : Kept st st₁ := by
          rw [hst₁]
          exact .of_errctx hext rfl
        refine watched_step halloc (watched_step (run_cstr.mpr ⟨hstr₁.cstr, rfl⟩) ?_)
        refine watched_step (call_ok rt _ st₁) ?_
        have hk₂ := hk₁.trans (kept_call (.openContainer .variant (chars bs)) st₁)
        have hvalue := (hrec x (depth_indexed rfl (by simp))).2 (hstr₁.mono (kept_call _ st₁).mem)
          (h.inside.kept hk₂) fun hnil => absurd hnil h.ne_nil
        refine watched_bind ((hsil q x).watched hvalue) fun t _ st₂ hpass => ?_
        have hk₃ := hk₂.trans (hpass.kept.trans (kept_call .closeContainer st₂))
        refine watched_step (call_ok rt _ st₂) ⟨p, _, rfl, rfl, hk₃, fun _ => ?_⟩
        obtain ⟨r, hr, hblk⟩ := hpass.strayed ((h.inside.kept hk₂).pos h.ne_nil)
        have hyoung : st.mem.next ≤ q.blk := by rw [hq]; exact Nat.le_refl _
        have hle := hk₂.mem.next_le
        exact ⟨r, hr, .inr (by omega)⟩
      | _ =>
        rw [judgeVariant_other (by simp)]
        exact watched_panic (isTypeError_append rfl (by decide) _)
    · rw [judgeVariant_other (by simp)]
      exact watched_panic (by decide)
  | _ =>
    rw [judgeVariant_other (by simp)]
    exact h.getter rfl "tuple"

variable (rt v) in
/-- The branches, on a string that is not at its end. -/
theorem branch_points (h : Working pr active p st) (hs : Str st.mem p s) (hne : s ≠ [])
    (hspan : (spanNextType s).isOk = true) (hinner : inner = true ↔ 1 < st.errctx.depth)
    (hrec : ∀ x, x.depth < v.depth → Points pr active rec verdict x) (hsil : ∀ p v, Silenced (rec p v)) :
    Ends (watch pr active (appendBranch rt openBus rec (s.headD '\x00') p v)) st (judgeBody rt verdict inner s v)
      fun _ q st' => (∃ k, stride s = .ok k ∧ q = p.add k) ∧ Stayed st p st' := by
  obtain ⟨ch, w, rfl⟩ : ∃ ch w, s = ch :: w := List.exists_cons_of_ne_nil hne
  rw [judgeBody, if_neg hne, if_neg (by rw [hspan]; decide), List.headD_cons, appendBranch]
  by_cases hbasic : isBasicType ch = true
  · rw [if_pos hbasic, if_pos hbasic]
    obtain ⟨c, rfl⟩ : ∃ c : Code, c.char = ch := by
      rcases isBasicType_iff.mp hbasic with hc | rfl
      · exact hc
      · exact absurd List.mem_cons_self hs.1
    have hkey : Ends (watch pr active (appendBasicType rt openBus p v)) st (judgeKey rt inner false (c.char :: w) v)
        fun _ _ st' => ∃ y, st' = { st with calls := st.calls ++ [basicCall y] } :=
      key_points hs h.inside h.top (by rw [if_neg (by decide)]; exact h.own) hinner
    have hfresh : judgeKey rt inner false (c.char :: w) v =
        if converts rt (c.char :: w) v then .done .own else .raises := by simp [judgeKey]
    rw [hfresh] at hkey
    refine watched_finish hkey fun t _ st₁ hst₁ => ?_
    obtain ⟨y, rfl⟩ := hst₁
    exact ⟨p, _, rfl, ⟨0, stride_atom (by simp [isBasicType_char]), rfl⟩, kept_call _ _, h.strayed rfl⟩
  rw [if_neg hbasic, if_neg hbasic]
  by_cases hv : ch = 'v'
  · subst hv
    rw [if_pos rfl, if_pos rfl]
    refine (variant_points h hrec hsil).mono fun t q st' hend => ⟨⟨0, rfl, ?_⟩, hend.2⟩
    rw [hend.1]
    rfl
  rw [if_neg hv, if_neg hv]
  by_cases hp : ch = '('
  · subst hp
    rw [if_pos rfl, if_pos rfl]
    exact struct_points h hs hrec hsil
  rw [if_neg hp, if_neg hp]
  by_cases ha : ch = 'a'
  · subst ha
    rw [if_pos rfl]
    exact array_points h hs hinner hrec hsil
  · -- `span_next_type` has refused every other character
    refine absurd hspan ?_
    simp [spanNextType, hbasic, hv, hp, ha, Except.isOk, Except.toBool]

end branches

/-! ### The walker -/

section walker
variable {rt : Runtime} {st st' : AppendState} {pr : Progress} {active : List Ptr} {p q : Ptr} {s : List Char}
  {v : Janet}

/-- What `dbus_errctx_set` does. -/
theorem set_run (p : Ptr) (len : ℕ) (st : AppendState) : ∃ st', dbusErrctxSet p len st = .ok () st' ∧
    st'.mem = st.mem ∧ st'.errctx.argc = st.errctx.argc ∧ st'.errctx.depth = st.errctx.depth + 1 ∧
    (1 ≤ st.errctx.depth → st'.errctx.sig₁ = some p ∧ st'.errctx.len₁ = len ∧
      st'.errctx.sig₀ = st.errctx.sig₀ ∧ st'.errctx.len₀ = st.errctx.len₀) ∧
    (¬ 1 ≤ st.errctx.depth → st'.errctx.sig₀ = some p ∧ st'.errctx.len₀ = len) := by
  obtain ⟨st', hrun, hm, _, hd, hin, hout⟩ := errctxSet_run p len st
  refine ⟨st', hrun, hm, ?_, hd, hin, hout⟩
  obtain rfl : st' = _ := (run_modify.mp hrun)
  dsimp only
  split <;> rfl

/-- The frame it makes. -/
theorem working_set {len : ℕ} (hs : Str st.mem p s) (hlen : len ≤ s.length) (hpos : 0 < len)
    (hin : Inside pr active st) (hstart : active = [] → p = pr.start)
    (hm : st'.mem = st.mem) (hargc : st'.errctx.argc = st.errctx.argc)
    (hd : st'.errctx.depth = st.errctx.depth + 1)
    (hinner : 1 ≤ st.errctx.depth → st'.errctx.sig₁ = some p ∧ st'.errctx.len₁ = len ∧
      st'.errctx.sig₀ = st.errctx.sig₀ ∧ st'.errctx.len₀ = st.errctx.len₀)
    (houter : ¬ 1 ≤ st.errctx.depth → st'.errctx.sig₀ = some p ∧ st'.errctx.len₀ = len) :
    Working pr (p :: active) p st' := by
  have hlive : (st.mem.blocks p.blk).isSome = true := by
    obtain ⟨_, cs, _, hcs, _⟩ := hs
    rw [hcs]
    rfl
  refine ⟨⟨hargc.trans hin.argc, by rw [hd, hin.depth, List.length_cons], fun _ => ?_, ?_⟩,
    List.mem_cons_self, fun hdeep => ?_⟩
  · by_cases hpos : 1 ≤ st.errctx.depth
    · have hne : active ≠ [] := by
        rintro rfl
        rw [hin.depth] at hpos
        exact absurd hpos (by simp)
      obtain ⟨_, _, h₀, hl₀⟩ := hinner hpos
      rw [h₀, hl₀, hm]
      exact hin.outer hne
    · have hnil : active = [] := by
        by_contra hne
        exact hpos (hin.pos hne)
      obtain ⟨h₀, hl₀⟩ := houter hpos
      rw [h₀, hl₀, hm]
      exact ⟨by rw [hstart hnil], p, s, rfl, hs, hlen, by omega⟩
  · intro q hq
    rw [hm]
    rcases List.mem_cons.mp hq with rfl | hq
    · exact hlive
    · exact hin.live q hq
  · obtain ⟨h₁, hl₁, _⟩ := hinner (by omega)
    rw [h₁, hl₁, hm]
    exact ⟨rfl, p, s, rfl, hs, hlen, hpos⟩

/-- The body of an activation behind `dbus_errctx_set`: the branch and the way out. -/
theorem passed_exit {st₁ st₂ : AppendState} (hm : st₁.mem = st.mem) (hargc : st₁.errctx.argc = st.errctx.argc)
    (hd : st₁.errctx.depth = st.errctx.depth + 1)
    (hsame : 1 ≤ st.errctx.depth → st₁.errctx.sig₀ = st.errctx.sig₀ ∧ st₁.errctx.len₀ = st.errctx.len₀)
    (hmoved : s ≠ [] → ∃ k, stride s = .ok k ∧ q = p.add k) (hstay : Stayed st₁ p st₂) :
    ∃ st₃, dbusErrctxExit st₂ = .ok () st₃ ∧ Passed st p s .released q st₃ := by
  obtain ⟨st₃, hst₃⟩ : ∃ st₃ : AppendState, st₃ = { st₂ with errctx := { st₂.errctx with
    depth := st₂.errctx.depth - 1 } } := ⟨_, rfl⟩
  refine ⟨st₃, run_modify.mpr hst₃, rfl, hmoved, ⟨?_, ?_, ?_, fun hpos => ?_⟩, fun hpos => ?_⟩
  · rw [hst₃, ← hm]; exact hstay.kept.mem
  · rw [hst₃]
    simp only [hstay.kept.depth, hd, Nat.add_sub_cancel]
  · rw [hst₃]
    exact hstay.kept.argc.trans hargc
  · obtain ⟨hs₀, hl₀⟩ := hstay.kept.outer (by omega)
    obtain ⟨hs₁, hl₁⟩ := hsame hpos
    rw [hst₃]
    exact ⟨hs₀.trans hs₁, hl₀.trans hl₁⟩
  · obtain ⟨r, hr, hblk⟩ := hstay.strayed (by omega)
    rw [hm] at hblk
    exact ⟨r, by rw [hst₃]; exact hr, hblk⟩

/-- At the end of a string nothing is converted. -/
theorem empty_passes (rt : Runtime) (rec : Ptr → Janet → Append Ptr) (v : Janet) (hs : Str st.mem p []) :
    Ends (appendCompleteBody rt openBus rec p v) st (.done .released) (Passed st p []) := by
  obtain ⟨st₁, hset, hm, hargc, hd, hinner, _⟩ := set_run p 1 st
  have hbasic : appendBranch rt openBus rec '\x00' p v st₁ = .ok p st₁ := by
    have hread : cursor p st₁ = .ok '\x00' st₁ := cursor_ok (by rw [hm]; exact hs.nil_read)
    rw [appendBranch, if_pos (by decide), appendBasicType]
    rw [bind_assoc, bind_ok hread]
    rfl
  have hstay : Stayed st₁ p st₁ := by
    refine ⟨.refl st₁, fun hdeep => ?_⟩
    exact ⟨p, (hinner (by omega)).1, .inl rfl⟩
  obtain ⟨st₂, hexit, hpass⟩ := passed_exit (q := p) hm hargc hd (fun hpos => (hinner hpos).2.2)
    (fun hne => absurd rfl hne) hstay
  rw [appendCompleteBody]
  refine .step (scan_ok hs rfl) (.step hset (.step (cursor_ok (by rw [hm]; exact hs.nil_read)) ?_))
  exact .step hbasic (.step hexit ⟨p, st₂, rfl, hpass⟩)

/-- A failed count of the span. -/
theorem spanNextType_error {msg : String} (h : spanNextType s = .error msg) : isTypeError msg = false := by
  rw [spanNextType] at h
  split at h
  · exact absurd h (by simp)
  · split at h
    · cases hs : findSubtype s with
      | error text =>
        rw [hs] at h
        rw [← Except.error.inj h]
        exact findSubtype_error hs
      | ok n => rw [hs] at h; exact absurd h (by simp [Except.map])
    · split at h
      · exact matchBracket_error h
      · rw [← Except.error.inj h]
        exact isTypeError_append rfl (by decide) _

/-- The watched walker keeps to the blame, by induction on the depth it may go to. -/
theorem complete_points (rt : Runtime) (pr : Progress) (n : ℕ) : ∀ (active : List Ptr) (v : Janet), v.depth < n →
    Points pr active (watchedCompleteType rt openBus pr n active) (blame rt n (!active.isEmpty)) v := by
  induction n with
  | zero => exact fun _ _ h => absurd h (Nat.not_lt_zero _)
  | succ n ih =>
    intro active v hv
    refine ⟨fun p => silenced_complete pr (n + 1) active p v, fun {st p s} hs hin hstart => ?_⟩
    have hrec : ∀ x, x.depth < v.depth → Points pr (p :: active)
        (watchedCompleteType rt openBus pr n (p :: active)) (blame rt n true) x :=
      fun x hx => ih (p :: active) x (Nat.lt_of_lt_of_le hx (Nat.le_of_lt_succ hv))
    have hsil : ∀ q x, Silenced (watchedCompleteType rt openBus pr n (p :: active) q x) :=
      silenced_complete pr n (p :: active)
    rw [watchedCompleteType, blame]
    by_cases hempty : s = []
    · subst hempty
      rw [if_pos rfl]
      obtain ⟨q, st', hrun, hpass⟩ := empty_passes rt (watchedCompleteType rt openBus pr n (p :: active)) v hs
      exact ⟨q, st', watch_ok.mpr hrun, hpass⟩
    rw [if_neg hempty, Verdict.map, appendCompleteBody]
    cases hspan : spanNextType s with
    | error msg =>
      rw [judgeBody, if_neg hempty, if_pos (by rw [hspan]; rfl)]
      exact watched_scan hs hspan (spanNextType_error hspan)
    | ok len =>
      obtain ⟨hpos, hlen⟩ := span_le hempty hspan
      obtain ⟨st₁, hset, hm, hargc, hd, hinner, houter⟩ := set_run p len st
      have hwork := working_set hs hlen hpos hin hstart hm hargc hd hinner houter
      have hs₁ : Str st₁.mem p s := by rw [hm]; exact hs
      have hdeep : (!active.isEmpty) = true ↔ 1 < st₁.errctx.depth := by
        rw [hd, hin.depth]
        cases active <;> simp
      refine watched_step (scan_ok hs hspan) (watched_step hset (watched_step (cursor_ok hs₁.read) ?_))
      have hbranch := branch_points rt v hwork hs₁ hempty (by rw [hspan]; rfl) hdeep hrec hsil
      refine watched_bind hbranch fun t q st₂ hend => ?_
      obtain ⟨st₃, hexit, hpass⟩ := passed_exit hm hargc hd (fun hpos => (hinner hpos).2.2)
        (fun _ => hend.1) hend.2
      exact watched_step hexit ⟨q, st₃, rfl, hpass⟩

/-- The loop over the arguments, from the one with index `i` on. -/
theorem args_points (rt : Runtime) {n : ℕ} {sig : List Char} : ∀ {xs : List Janet} {i : ℕ} {st : AppendState}
    {t₀ : Trail}, (∀ x ∈ xs, x.depth < n) → st.errctx.argc = i → st.errctx.depth = 0 → Str st.mem p sig →
    Str st.mem (p.add (startOf sig i)) (sig.drop (startOf sig i)) →
    Ends (watchedArgs rt openBus n sig p i (p.add (startOf sig i)) xs) st
      (judgeLoop (blame rt n false) (sig.drop (startOf sig i)) xs t₀)
      fun _ q st' => Str st'.mem q (leftover (sig.drop (startOf sig i)) xs) ∧ Str st'.mem p sig
  | [], i, st, t₀, _, _, _, hsig, hs => ⟨_, st, rfl, hs, hsig⟩
  | x :: xs, i, st, t₀, hdepth, hargc, hd, hsig, hs => by
    rw [watchedArgs, judgeLoop]
    refine .step (cursor_ok hs.read) ?_
    by_cases hempty : sig.drop (startOf sig i) = []
    · rw [hempty, if_pos rfl]
      obtain ⟨msg, hraise⟩ := panicIf_raises (c := ([] : List Char).headD '\x00' = '\x00') rfl
        "Excessive arguments for signature: " hsig
      exact .raise hraise
    rw [if_neg hempty]
    have hhead : (sig.drop (startOf sig i)).headD '\x00' ≠ '\x00' := fun heq =>
      hempty (hs.eq_nil (by rw [hs.read, heq]))
    obtain ⟨st₁, hst₁⟩ : ∃ st₁ : AppendState, st₁ = { st with errctx := { st.errctx with
      argc := st.errctx.argc + 1 } } := ⟨_, rfl⟩
    have hm₁ : st₁.mem = st.mem := by rw [hst₁]
    have hin : Inside ⟨i + 1, p.add (startOf sig i)⟩ [] st₁ := by
      refine ⟨?_, ?_, fun hne => absurd rfl hne, fun q hq => absurd hq (by simp)⟩
      · rw [hst₁, ← hargc]
      · rw [hst₁]
        exact hd
    have hinc : dbusErrctxInc st = .ok () st₁ := run_modify.mpr hst₁
    refine .step (panicIf_ok hhead _) (.step hinc ?_)
    have hvalue := (complete_points rt ⟨i + 1, p.add (startOf sig i)⟩ n [] x (hdepth x (by simp))).2
      (by rw [hm₁]; exact hs) hin fun _ => rfl
    refine hvalue.bind fun t q st₂ hpass => ?_
    obtain ⟨k, hk, rfl⟩ := hpass.moved hempty
    -- the next argument's type starts behind this one's
    have hstart : startOf sig (i + 1) = startOf sig i + (k + 1) := by rw [startOf, hk]
    have hmem : Extends st.mem st₂.mem := by rw [← hm₁]; exact hpass.kept.mem
    have hrest : Str st₂.mem (p.add (startOf sig (i + 1))) (sig.drop (startOf sig (i + 1))) := by
      have hdrop := str_drop (hs.mono hmem) (stride_lt hempty hk)
      rwa [Ptr.add_add, List.drop_drop, ← hstart] at hdrop
    have hnext : next ((p.add (startOf sig i)).add k) st₂ = .ok (p.add (startOf sig (i + 1))) st₂ := by
      refine run_next.mpr ⟨⟨(sig.drop (startOf sig (i + 1))).headD '\x00', ?_⟩, ?_, rfl⟩
      · rw [hstart, Ptr.add_add, Ptr.add_add, ← hstart]
        exact hrest.read
      · rw [hstart, Ptr.add_add, Ptr.add_add]
    have hargc₂ : st₂.errctx.argc = i + 1 := hpass.kept.argc.trans hin.argc
    have hd₂ : st₂.errctx.depth = 0 := hpass.kept.depth.trans hin.depth
    have hdropped : (sig.drop (startOf sig i)).drop (k + 1) = sig.drop (startOf sig (i + 1)) := by
      rw [List.drop_drop, ← hstart]
    simp only [hk, hdropped]
    refine .step hnext ((args_points rt (fun y hy => hdepth y (List.mem_cons_of_mem _ hy)) hargc₂ hd₂
      (hsig.mono hmem) hrest).mono fun t' q' st₃ h => ?_)
    rw [leftover, hk]
    simp only [hdropped]
    exact h

/-- The watched encoder keeps to the blame on a whole signature. -/
theorem watchedData_ends (rt : Runtime) (args : List Janet) (hs : Str st.mem p s) :
    Ends (watchedData rt openBus s p args) st (judgeFields (blame rt (depthAll args + 1) false) s args)
      fun _ _ _ => True := by
  obtain ⟨st₁, hst₁⟩ : ∃ st₁ : AppendState, st₁ = { st with errctx := ⟨none, 0, none, 0, 0, 0⟩ } := ⟨_, rfl⟩
  have hs₁ : Str st₁.mem p s := by rw [hst₁]; exact hs
  rw [watchedData, judgeFields]
  have hreset : dbusErrctxReset st = .ok () st₁ := run_modify.mpr hst₁
  refine .step hreset ?_
  have hargs : Ends (watchedArgs rt openBus (depthAll args + 1) s p 0 p args) st₁
      (judgeLoop (blame rt (depthAll args + 1) false) s args .own)
      fun _ q st' => Str st'.mem q (leftover s args) ∧ Str st'.mem p s :=
    args_points rt (fun x hx => Nat.lt_succ_of_le (depth_le_all hx)) (by rw [hst₁]) (by rw [hst₁]) hs₁ hs₁
  refine hargs.bind fun t q st₂ h => ?_
  obtain ⟨hq, hsig⟩ := h
  refine .step (cursor_ok hq.read) ?_
  by_cases hrest : leftover s args = []
  · rw [if_pos hrest]
    exact .step (panicIf_ok (by rw [hrest]; simp) _) ⟨q, st₂, rfl, trivial⟩
  · rw [if_neg hrest]
    have hne : (leftover s args).headD '\x00' ≠ '\x00' := fun heq => hrest (hq.eq_nil (by rw [hq.read, heq]))
    obtain ⟨msg, hraise⟩ := panicIf_raises hne "Arguments missing for signature: " hsig
    exact .raise hraise

/-! ### Any sd-bus -/

/-- Reasons that concern type errors. -/
def Loud (e : Stop) : Prop := e = .fault ∨ ∃ msg, e = .panic msg ∧ isTypeError msg = true

theorem tracks_openBus (rt : Runtime) (sd : SdBus) (c : Call) :
    Tracks Loud Eq (callSdBusFunc rt sd c) (callSdBusFunc rt openBus c) := by
  intro st
  constructor
  · intro a st' h
    rw [(run_call.mp h).2]
    exact call_ok rt c st
  · intro e st' he h
    by_cases hrv : sd st.calls c < 0
    · have hrefused : callSdBusFunc rt sd c st = .error (.panic ("failed to call " ++ c.name ++ ": " ++
          rt.strerror (-sd st.calls c))) { st with calls := st.calls ++ [c] } := by
        have hpanic : panicIf (sd st.calls c < 0) (pure ("failed to call " ++ c.name ++ ": " ++
            rt.strerror (-sd st.calls c))) { st with calls := st.calls ++ [c] } = .error (.panic ("failed to call " ++
            c.name ++ ": " ++ rt.strerror (-sd st.calls c))) { st with calls := st.calls ++ [c] } := by
          rw [panicIf, if_pos hrv]
          rfl
        exact hpanic
      rw [hrefused] at h
      obtain ⟨rfl, _⟩ := EStateM.Result.error.inj h
      rcases he with hfault | ⟨msg, hmsg, htype⟩
      · exact absurd hfault (by simp)
      · rw [← Stop.panic.inj hmsg, String.append_assoc, String.append_assoc,
          isTypeError_append rfl (by decide)] at htype
        exact absurd htype (by decide)
    · have hrun : callSdBusFunc rt sd c st = .ok () { st with calls := st.calls ++ [c] } :=
        run_call.mpr ⟨hrv, rfl⟩
      rw [hrun] at h
      exact absurd h (by simp)

theorem watch_tracks {α : Type} {m m' : Append α} (h : Tracks Loud Eq m m') :
    Tracks Loud Eq (watch pr active m) (watch pr active m') := by
  intro st
  refine ⟨fun a st' hrun => watch_ok.mpr ((h st).1 a st' (watch_ok.mp hrun)), fun e st' he hrun => ?_⟩
  cases hm : m st with
  | ok a s => exact absurd ((watch_ok.mpr hm).symm.trans hrun) (by simp)
  | error e' s =>
    obtain ⟨rfl, rfl⟩ := EStateM.Result.error.inj ((watch_error pr active hm).symm.trans hrun)
    -- a stop is loud behind the watch if it is before
    have hloud : Loud e' := by
      by_contra hquiet
      rw [judgement_other fun msg heq => Bool.eq_false_iff.mpr fun hmsg => hquiet (.inr ⟨msg, heq, hmsg⟩)] at he
      exact hquiet he
    obtain ⟨_, rfl, hm'⟩ := (h st).2 e' s hloud hm
    exact ⟨_, rfl, watch_error pr active hm'⟩

theorem complete_tracks (rt : Runtime) (sd : SdBus) (pr : Progress) : ∀ (n : ℕ) (active : List Ptr) (p : Ptr)
    (arg : Janet), Tracks Loud Eq (watchedCompleteType rt sd pr n active p arg)
      (watchedCompleteType rt openBus pr n active p arg)
  | 0, _, _, _ => .refl (fun _ => rfl) _
  | n + 1, active, p, arg => watch_tracks
      (tracks_body (fun _ => rfl) (tracks_openBus rt sd) (complete_tracks rt sd pr n (p :: active)) p arg)

theorem args_tracks (rt : Runtime) (sd : SdBus) (n : ℕ) (s : List Char) (signature : Ptr) : ∀ (i : ℕ) (p : Ptr)
    (xs : List Janet), Tracks Loud Eq (watchedArgs rt sd n s signature i p xs)
      (watchedArgs rt openBus n s signature i p xs)
  | _, _, [] => .refl (fun _ => rfl) _
  | i, p, x :: xs => by
    refine .after (fun _ => rfl) fun ch => .after (fun _ => rfl) fun _ => .after (fun _ => rfl) fun _ => ?_
    refine (complete_tracks rt sd _ n [] p x).bind fun q => .after (fun _ => rfl) fun q => ?_
    exact args_tracks rt sd n s signature (i + 1) q xs

theorem data_tracks (rt : Runtime) (sd : SdBus) (s : List Char) (signature : Ptr) (args : List Janet) :
    Tracks Loud Eq (watchedData rt sd s signature args) (watchedData rt openBus s signature args) := by
  refine .after (fun _ => rfl) fun _ => (args_tracks rt sd _ s signature 0 signature args).bind fun _ => ?_
  exact .refl (fun _ => rfl) _

/-- Whatever sd-bus answers, and whatever the encoder has been used for before: every type error of
    `append_data` points at the right place, unless a key of a dictionary inside another container,
    behind the first entry, is of a wrong type and nothing is raised before. -/
theorem points_right_iff (rt : Runtime) (st : AppendState) (p : Ptr) (s : List Char) (args : List Janet)
    (hs : Str st.mem p s) : (∀ sd, PointsRight rt sd s p args st) ↔ ¬ Misplaced rt s args := by
  have hends := watchedData_ends rt args hs
  rw [Misplaced]
  constructor
  · intro hright hwrong
    rw [hwrong] at hends
    obtain ⟨st', hfault⟩ := hends
    exact pointsRight_iff.mp (hright openBus) st' hfault
  · intro hblame sd
    refine pointsRight_iff.mpr fun st' hfault => ?_
    obtain ⟨_, rfl, hopen⟩ := (data_tracks rt sd s p args st).2 .fault st' (.inl rfl) hfault
    cases hv : judgeFields (blame rt (depthAll args + 1) false) s args with
    | wrong => exact hblame hv
    | raises =>
      rw [hv] at hends
      obtain ⟨msg, st₁, hraise⟩ := hends
      exact absurd (hraise.symm.trans hopen) (by simp)
    | done t =>
      rw [hv] at hends
      obtain ⟨q, st₁, hok, _⟩ := hends
      exact absurd (hok.symm.trans hopen) (by simp)

/-- A dictionary in an array whose first key is of a wrong type: the error names the dictionary. -/
theorem points_right_iff_first : (∀ sd, PointsRight silentRuntime sd ['a', 'a', '{', 's', 'i', '}'] ⟨0, 0⟩
      [.array [.table [(.boolean true, .number (.fin 2))]]] (initial ['a', 'a', '{', 's', 'i', '}'])) ∧
    ¬ Misplaced silentRuntime ['a', 'a', '{', 's', 'i', '}'] [.array [.table [(.boolean true, .number (.fin 2))]]] := by
  have hraises : judgeFields (blame silentRuntime (depthAll [.array [.table [(.boolean true, .number (.fin 2))]]] + 1)
    false) ['a', 'a', '{', 's', 'i', '}'] [.array [.table [(.boolean true, .number (.fin 2))]]] = .raises := rfl
  have hblame : ¬ Misplaced silentRuntime ['a', 'a', '{', 's', 'i', '}']
      [.array [.table [(.boolean true, .number (.fin 2))]]] := by
    rw [Misplaced, hraises]
    decide
  exact ⟨(points_right_iff silentRuntime _ ⟨0, 0⟩ _ _ (initial_str (by decide))).mpr hblame, hblame⟩

/-- The same behind an entry that is right. -/
def lateKey : List Janet :=
  [.array [.table [(.string [97], .number (.fin 1)), (.boolean true, .number (.fin 2))]]]

def said (r : EStateM.Result Stop AppendState Ptr) : Option String :=
  match r with
  | .error (.panic msg) _ => some msg
  | _ => none

/-- The key is said to be no `i`, which is the type of the value before it. -/
theorem lateKey_misplaced :
    said (appendData silentRuntime checkingBus ⟨0, 0⟩ lateKey (initial ['a', 'a', '{', 's', 'i', '}'])) =
      some "bad argument #1 to D-Bus type 'i' (within 'aa{si}'), expected string, got " ∧
    ¬ PointsRight silentRuntime checkingBus ['a', 'a', '{', 's', 'i', '}'] ⟨0, 0⟩ lateKey
      (initial ['a', 'a', '{', 's', 'i', '}']) := by
  refine ⟨by decide +kernel, fun hright => ?_⟩
  obtain ⟨st, hfault⟩ : ∃ st, watchedData silentRuntime checkingBus ['a', 'a', '{', 's', 'i', '}'] ⟨0, 0⟩ lateKey
      (initial ['a', 'a', '{', 's', 'i', '}']) = .error .fault st := faulted_iff.mp (by decide +kernel)
  exact pointsRight_iff.mp hright st hfault

end walker

end JanetSdbus.Message
