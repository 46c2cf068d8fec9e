import JanetSdbus.Message.Verdict

/-! The encoder keeps to the verdict.

    Under an sd-bus that accepts everything the guarded walker ends as `judge` says (`Keeps`): the
    container branches do if the call-backs do, so the walker does by induction on the depth of the
    value. What is carried along is where the two spans of the error context lie: the outer one in
    the caller's signature, the inner one where the trail says. -/

namespace JanetSdbus.Message
open DBus Schemes.CMemory

/-- An sd-bus that accepts every call. -/
def openBus : SdBus := fun _ _ => 0

/-! ### Ends of a run -/

section ends
variable {α β : Type} {st s : AppendState}

/-- A run that ends as the verdict says; `Q` holds of the trail, the result and the state. -/
def Ends (x : Append α) (st : AppendState) (v : Verdict) (Q : Trail → α → AppendState → Prop) : Prop :=
  match v with
  | .wrong => ∃ s, x st = .error .fault s
  | .raises => ∃ msg s, x st = .error (.panic msg) s
  | .done t => ∃ a s, x st = .ok a s ∧ Q t a s

variable {x : Append α} {f : α → Append β} {V : Verdict} {W : Trail → Verdict}
  {Q : Trail → α → AppendState → Prop} {R : Trail → β → AppendState → Prop}

theorem Ends.bind (hx : Ends x st V Q) (hf : ∀ t a s, Q t a s → Ends (f a) s (W t) R) :
    Ends (x >>= f) st (V.bind W) R := by
  cases V with
  | wrong =>
    obtain ⟨s, hs⟩ := hx
    exact ⟨s, error_bind.mpr (.inl hs)⟩
  | raises =>
    obtain ⟨msg, s, hs⟩ := hx
    exact ⟨msg, s, error_bind.mpr (.inl hs)⟩
  | done t =>
    obtain ⟨a, s, hs, hq⟩ := hx
    have hend := hf t a s hq
    rw [Verdict.bind]
    cases hW : W t with
    | wrong =>
      rw [hW] at hend
      obtain ⟨s', hs'⟩ := hend
      exact ⟨s', error_bind.mpr (.inr ⟨a, s, hs, hs'⟩)⟩
    | raises =>
      rw [hW] at hend
      obtain ⟨msg, s', hs'⟩ := hend
      exact ⟨msg, s', error_bind.mpr (.inr ⟨a, s, hs, hs'⟩)⟩
    | done t' =>
      rw [hW] at hend
      obtain ⟨b, s', hs', hr⟩ := hend
      exact ⟨b, s', run_bind.mpr ⟨a, s, hs, hs'⟩, hr⟩

/-- What follows keeps the trail. -/
theorem Ends.finish (hx : Ends x st V Q) (hf : ∀ t a s, Q t a s → Ends (f a) s (.done t) R) :
    Ends (x >>= f) st V R := by
  have hV : V.bind Verdict.done = V := by cases V <;> rfl
  rw [← hV]
  exact hx.bind hf

/-- A step that returns. -/
theorem Ends.step {a : α} (hx : x st = .ok a s) (hf : Ends (f a) s V R) : Ends (x >>= f) st V R := by
  have hdone : Ends x st (.done .own) fun _ a' s' => a' = a ∧ s' = s := ⟨a, s, hx, rfl, rfl⟩
  have hbind := hdone.bind (W := fun _ => V) (R := R) (f := f) fun _ a' s' h => by
    obtain ⟨rfl, rfl⟩ := h
    exact hf
  exact hbind

/-- A step that raises. -/
theorem Ends.raise {e : String} (hx : x st = .error (.panic e) s) : Ends (x >>= f) st .raises R :=
  ⟨e, s, error_bind.mpr (.inl hx)⟩

theorem Ends.panic {msg : String} : Ends (janetPanic msg : Append α) st .raises Q := ⟨msg, st, rfl⟩

theorem Ends.fault (hx : x st = .error .fault s) : Ends (x >>= f) st .wrong R :=
  ⟨s, error_bind.mpr (.inl hx)⟩

theorem Ends.mono {Q' : Trail → α → AppendState → Prop} (hx : Ends x st V Q)
    (h : ∀ t a s, Q t a s → Q' t a s) : Ends x st V Q' := by
  cases V with
  | done t =>
    obtain ⟨a, s, hs, hq⟩ := hx
    exact ⟨a, s, hs, h t a s hq⟩
  | _ => exact hx

end ends

/-! ### The error context -/

section context
variable {α : Type} {rt : Runtime} {st st' st₁ : AppendState} {p : Ptr}

/-- A span in a string that can be read. -/
def Readable (m : Mem) (sig : Option Ptr) (len : ℕ) : Prop :=
  ∃ q s, sig = some q ∧ Str m q s ∧ len ≤ s.length ∧ 0 < len

theorem Readable.mono {m m' : Mem} {sig : Option Ptr} {len : ℕ} (h : Readable m sig len)
    (hm : Extends m m') : Readable m' sig len := by
  obtain ⟨q, s, hq, hs, hlen⟩ := h
  exact ⟨q, s, hq, hs.mono hm, hlen⟩

theorem Readable.format {sig : Option Ptr} {len : ℕ} (h : Readable st.mem sig len) :
    ∃ text, formatErrctx sig len st = .ok (some text) st := by
  obtain ⟨q, s, rfl, hs, hle, hpos⟩ := h
  obtain ⟨n, hn⟩ : ∃ n, n = if ERRCTX_MAX_SIG_LEN - 4 < len then ERRCTX_MAX_SIG_LEN - 4 else len :=
    ⟨_, rfl⟩
  have hns : n ≤ s.length := by
    rw [hn]
    split <;> omega
  have hread : st.mem.readN q n = some (s.take n) := by
    have h := Str.readN (s := s.take n) (t := s.drop n) (m := st.mem) (p := q)
      (by rw [List.take_append_drop]; exact hs)
    rwa [List.length_take, Nat.min_eq_left hns] at h
  rw [formatErrctx, if_neg (Nat.ne_of_gt hpos)]
  simp only [← hn]
  exact ⟨_, run_bind.mpr ⟨_, st, run_access.mpr ⟨hread, rfl⟩, run_pure.mpr ⟨rfl, rfl⟩⟩⟩

theorem format_dangling {q : Ptr} {len : ℕ} (hb : st.mem.blocks q.blk = none) (hpos : 0 < len) :
    formatErrctx (some q) len st = .error .fault st := by
  have hread : ∀ n, access (·.readN q n) st = .error .fault st := by
    intro n
    have hnone : st.mem.readN q n = none := by rw [Mem.readN, hb]; rfl
    rw [access]
    exact error_bind.mpr (.inr ⟨st, st, rfl, by rw [hnone]; rfl⟩)
  rw [formatErrctx, if_neg (Nat.ne_of_gt hpos)]
  exact error_bind.mpr (.inl (hread _))

/-- Both spans of the error context can be read, the inner one where it is in use. -/
def Speaks (st : AppendState) : Prop :=
  Readable st.mem st.errctx.sig₀ st.errctx.len₀ ∧
    (1 < st.errctx.depth → Readable st.mem st.errctx.sig₁ st.errctx.len₁)

/-- A type error is raised. -/
theorem Speaks.typeError (h : Speaks st) (ty : String) (x : Janet) :
    ∃ msg, (dbusTypeError rt ty x : Append α) st = .error (.panic msg) st := by
  obtain ⟨text₀, h₀⟩ := h.1.format
  have hchild : ∃ text₁, formatChild st.errctx st = .ok text₁ st := by
    rw [formatChild]
    split
    · next hd =>
      obtain ⟨text₁, h₁⟩ := (h.2 hd).format
      exact ⟨some text₁, h₁⟩
    · exact ⟨none, rfl⟩
  obtain ⟨text₁, h₁⟩ := hchild
  have hget : (get : Append AppendState) st = .ok st st := rfl
  rw [dbusTypeError]
  cases text₁ with
  | none =>
    exact ⟨_, error_bind.mpr (.inr ⟨_, _, hget, error_bind.mpr (.inr ⟨_, _, h₀, error_bind.mpr
      (.inr ⟨_, _, h₁, rfl⟩)⟩)⟩)⟩
  | some text₁ =>
    exact ⟨_, error_bind.mpr (.inr ⟨_, _, hget, error_bind.mpr (.inr ⟨_, _, h₀, error_bind.mpr
      (.inr ⟨_, _, h₁, rfl⟩)⟩)⟩)⟩

/-- The inner span lies in released memory. -/
def Dangles (st : AppendState) : Prop :=
  ∃ q, st.errctx.sig₁ = some q ∧ st.mem.blocks q.blk = none ∧ 0 < st.errctx.len₁

/-- A type error reads released memory. -/
theorem Dangles.typeError (h : Dangles st) (h₀ : Readable st.mem st.errctx.sig₀ st.errctx.len₀)
    (hd : 1 < st.errctx.depth) (ty : String) (x : Janet) :
    (dbusTypeError rt ty x : Append α) st = .error .fault st := by
  obtain ⟨q, hq, hb, hpos⟩ := h
  obtain ⟨text₀, h₀⟩ := h₀.format
  have hget : (get : Append AppendState) st = .ok st st := rfl
  rw [dbusTypeError]
  refine error_bind.mpr (.inr ⟨_, _, hget, error_bind.mpr (.inr ⟨_, _, h₀, error_bind.mpr (.inl ?_)⟩)⟩)
  rw [formatChild, if_pos hd, hq]
  exact format_dangling hb hpos

/-- Where the inner span is at the end of a walk that began in block `b`, with the blocks from `base`
    on made on the way. -/
def Trail.Points (st : AppendState) (b base : ℕ) : Trail → Prop
  | .own => ∃ q s, st.errctx.sig₁ = some q ∧ q.blk = b ∧ Str st.mem q s ∧
      st.errctx.len₁ ≤ s.length ∧ 0 < st.errctx.len₁
  | .kept => ∃ q s, st.errctx.sig₁ = some q ∧ base ≤ q.blk ∧ Str st.mem q s ∧
      st.errctx.len₁ ≤ s.length ∧ 0 < st.errctx.len₁
  | .released => Dangles st

theorem Trail.Points.readable {t : Trail} {b base : ℕ} (h : t.Points st b base) (ht : t ≠ .released) :
    Readable st.mem st.errctx.sig₁ st.errctx.len₁ := by
  cases t with
  | released => exact absurd rfl ht
  | own =>
    obtain ⟨q, s, hq, _, hs, hlen⟩ := h
    exact ⟨q, s, hq, hs, hlen⟩
  | kept =>
    obtain ⟨q, s, hq, _, hs, hlen⟩ := h
    exact ⟨q, s, hq, hs, hlen⟩

/-- What any piece of the encoder leaves as it was, but for the span of the level below. -/
structure Framed (st st' : AppendState) : Prop where
  mem : Extends st.mem st'.mem
  depth : st'.errctx.depth = st.errctx.depth
  outer : 1 ≤ st.errctx.depth → st'.errctx.sig₀ = st.errctx.sig₀ ∧ st'.errctx.len₀ = st.errctx.len₀
  calls : ∃ cs, st'.calls = st.calls ++ cs ∧ Keyed cs

theorem Framed.refl (st : AppendState) : Framed st st :=
  ⟨.refl _, rfl, fun _ => ⟨rfl, rfl⟩, [], (List.append_nil _).symm, trivial⟩

theorem Framed.trans (h₁ : Framed st st₁) (h₂ : Framed st₁ st') : Framed st st' := by
  refine ⟨h₁.mem.trans h₂.mem, by rw [h₂.depth, h₁.depth], fun hd => ?_, ?_⟩
  · obtain ⟨hs₁, hl₁⟩ := h₁.outer hd
    obtain ⟨hs₂, hl₂⟩ := h₂.outer (by rw [h₁.depth]; exact hd)
    exact ⟨by rw [hs₂, hs₁], by rw [hl₂, hl₁]⟩
  · obtain ⟨cs, hcs, hk⟩ := h₁.calls
    obtain ⟨ds, hds, hk'⟩ := h₂.calls
    exact ⟨cs ++ ds, by rw [hds, hcs, List.append_assoc], keyed_append hk hk'⟩

/-- The outer span stays readable. -/
theorem Framed.named (h : Framed st st') (hd : 1 ≤ st.errctx.depth)
    (h₀ : Readable st.mem st.errctx.sig₀ st.errctx.len₀) :
    Readable st'.mem st'.errctx.sig₀ st'.errctx.len₀ := by
  obtain ⟨hs, hl⟩ := h.outer hd
  rw [hs, hl]
  exact h₀.mono h.mem

end context

/-! ### Conversions -/

section conversions
variable {α : Type} {rt : Runtime} {sd : SdBus} {st st' : AppendState} {p : Ptr} {c : Code} {x : Janet}

variable (rt) in
theorem getter_raises (hsp : Speaks st) {check : Janet → Option α} (hx : check x = none) (ty : String) :
    ∃ msg, getter rt check ty x st = .error (.panic msg) st := by
  have htype : ∃ msg, (dbusTypeError rt ty x : Append α) st = .error (.panic msg) st := hsp.typeError ty x
  rw [getter, hx]
  exact htype

theorem getter_ok {check : Janet → Option α} {a : α} (hx : check x = some a) (ty : String) :
    getter rt check ty x st = .ok a st := run_getter.mpr ⟨hx, rfl⟩

theorem getter_faults {check : Janet → Option α} (hx : check x = none)
    (hfault : ∀ ty, (dbusTypeError rt ty x : Append α) st = .error .fault st) (ty : String) :
    getter rt check ty x st = .error .fault st := by
  rw [getter, hx]
  exact hfault ty

theorem cursor_ok {ch : Char} (hc : st.mem.read p = some ch) : cursor p st = .ok ch st :=
  run_cursor.mpr ⟨hc, rfl⟩

theorem bind_ok {β : Type} {y : Append α} {f : α → Append β} {a : α} (hy : y st = .ok a st') :
    (y >>= f) st = f a st' := by
  simp [bind, EStateM.bind, hy]

/-- A failed conversion is raised. -/
theorem basic_raises (hc : st.mem.read p = some c.char) (hsp : typeFails rt c x = true → Speaks st)
    (hx : convert rt c x = none) :
    ∃ msg s, appendBasicType rt sd p x st = .error (.panic msg) s := by
  have hraise : ∀ {α : Type} {get : Append α} {f : α → Append Unit},
      (∃ msg, get st = .error (.panic msg) st) → ∃ msg s, (get >>= f) st = .error (.panic msg) s := by
    rintro α get f ⟨msg, h⟩
    exact ⟨msg, st, error_bind.mpr (.inl h)⟩
  rw [appendBasicType, bind_ok (cursor_ok hc), Code.ofChar_char]
  cases c with
  | boolean =>
    refine hraise (getter_raises _ (hsp (Option.isNone_iff_eq_none.mpr hx)) ?_ _)
    cases x <;> first | rfl | exact absurd hx (by simp [convert])
  | double =>
    refine hraise (getter_raises _ (hsp (Option.isNone_iff_eq_none.mpr hx)) ?_ _)
    cases x <;> first | rfl | exact absurd hx (by simp [convert])
  | int64 =>
    refine hraise ?_
    rw [getinteger64, Option.map_eq_none_iff.mp hx]
    exact ⟨_, rfl⟩
  | uint64 =>
    refine hraise ?_
    rw [getuinteger64, Option.map_eq_none_iff.mp hx]
    exact ⟨_, rfl⟩
  | string | objectPath | signature =>
    refine hraise ?_
    have hnone := Option.map_eq_none_iff.mp hx
    cases x with
    | string bs =>
      rw [Janet.cstring] at hnone
      refine ⟨"bytes contain embedded 0s", error_bind.mpr (.inr ⟨bs, st, run_getter.mpr ⟨rfl, rfl⟩, ?_⟩)⟩
      rw [hnone]
      rfl
    | _ =>
      refine (getter_raises _ (hsp rfl) ?_ _).imp fun msg h => error_bind.mpr (.inl h)
      rfl
  | fd =>
    refine hraise ?_
    cases x with
    | file closed n => cases closed <;> first | exact ⟨_, rfl⟩ | exact absurd hx (by simp [convert, Janet.descriptor])
    | stream closed n => cases closed <;> first | exact ⟨_, rfl⟩ | exact absurd hx (by simp [convert, Janet.descriptor])
    | _ => exact (hsp rfl).typeError _ _
  | _ => exact hraise (getter_raises _ (hsp (Option.isNone_iff_eq_none.mpr hx)) (Option.map_eq_none_iff.mp hx) _)

/-- A failed type check where the type cannot be named. -/
theorem basic_faults (hc : st.mem.read p = some c.char) (hx : typeFails rt c x = true)
    (hfault : ∀ (α : Type) ty, (dbusTypeError rt ty x : Append α) st = .error .fault st) :
    appendBasicType rt sd p x st = .error .fault st := by
  rw [appendBasicType, bind_ok (cursor_ok hc), Code.ofChar_char]
  cases c with
  | int64 | uint64 => exact absurd hx (by simp [typeFails])
  | boolean | double =>
    refine error_bind.mpr (.inl (getter_faults ?_ (hfault _) _))
    cases x <;> first | rfl | exact absurd hx (by simp [typeFails, convert])
  | string | objectPath | signature =>
    cases x with
    | string bs => exact absurd hx (by simp [typeFails])
    | _ =>
      refine error_bind.mpr (.inl (error_bind.mpr (.inl (getter_faults ?_ (hfault _) _))))
      rfl
  | fd =>
    cases x with
    | file | stream => exact absurd hx (by simp [typeFails])
    | _ => exact error_bind.mpr (.inl (hfault _ _))
  | _ =>
    have hnone := Option.isNone_iff_eq_none.mp hx
    exact error_bind.mpr (.inl (getter_faults (Option.map_eq_none_iff.mp hnone) (hfault _) _))

end conversions

/-! ### Frames -/

section frames
variable {rt : Runtime} {st st' st₁ st₂ : AppendState} {p q : Ptr} {s r : List Char} {inner : Bool}

theorem call_ok (rt : Runtime) (c : Call) (st : AppendState) :
    callSdBusFunc rt openBus c st = .ok () { st with calls := st.calls ++ [c] } :=
  run_call.mpr ⟨by simp [openBus], rfl⟩

theorem framed_call {c : Call} (hc : ∀ s, c ≠ .openContainer .dictEntry s) :
    Framed st { st with calls := st.calls ++ [c] } :=
  ⟨.refl _, rfl, fun _ => ⟨rfl, rfl⟩, [c], rfl, keyed_single hc⟩

/-- Inside an activation of `append_complete_type`, on a type that is at `p`. -/
structure InFrame (inner : Bool) (st : AppendState) (p : Ptr) (s : List Char) : Prop where
  str : Str st.mem p s
  pos : 1 ≤ st.errctx.depth
  inner_iff : inner = true ↔ 1 < st.errctx.depth
  named : Readable st.mem st.errctx.sig₀ st.errctx.len₀
  own : 1 < st.errctx.depth → Trail.own.Points st p.blk 0

theorem InFrame.speaks (h : InFrame inner st p s) : Speaks st :=
  ⟨h.named, fun hd => (h.own hd).readable (by decide)⟩

/-- The frame is there as long as memory is only added to. -/
theorem InFrame.extend (h : InFrame inner st p s) (hm : Extends st.mem st'.mem)
    (he : st'.errctx = st.errctx) : InFrame inner st' p s := by
  refine ⟨h.str.mono hm, by rw [he]; exact h.pos, by rw [he]; exact h.inner_iff,
    by rw [he]; exact h.named.mono hm, fun hd => ?_⟩
  rw [he] at hd
  obtain ⟨q, u, hq, hb, hs, hlen⟩ := h.own hd
  exact ⟨q, u, by rw [he]; exact hq, hb, hs.mono hm, by rw [he]; exact hlen⟩

/-- Inside the type `s` at `p`, what a branch leaves behind. -/
structure Left (st : AppendState) (p : Ptr) (s : List Char) (t : Trail) (q : Ptr) (st' : AppendState) :
    Prop where
  moved : ∃ k, stride s = .ok k ∧ q = p.add k
  framed : Framed st st'
  trail : 1 < st.errctx.depth → t.Points st' p.blk st.mem.next
  called : st.calls.length < st'.calls.length

/-- What an activation leaves behind. -/
structure Walked (st : AppendState) (p : Ptr) (s : List Char) (t : Trail) (q : Ptr) (st' : AppendState) :
    Prop where
  moved : ∃ k, stride s = .ok k ∧ q = p.add k
  framed : Framed st st'
  trail : 1 ≤ st.errctx.depth → t.Points st' p.blk st.mem.next
  called : st.calls.length < st'.calls.length

/-- An activation on the value `v` keeps to the verdict. -/
def Keeps (rec : Ptr → Janet → Append Ptr) (verdict : List Char → Janet → Verdict) (inner : Bool)
    (v : Janet) : Prop :=
  ∀ {st p s}, Str st.mem p s → (inner = true ↔ 1 ≤ st.errctx.depth) →
    (1 ≤ st.errctx.depth → Readable st.mem st.errctx.sig₀ st.errctx.len₀) →
    Ends (rec p v) st (verdict s v) (Walked st p s)

/-- Where the trail of a loop over a copy in block `b` may lead. -/
def Trailed (st st' : AppendState) (b : ℕ) (t₀ t : Trail) : Prop :=
  (t = t₀ ∧ st' = st) ∨ ∃ u : Trail, t = u.release ∧ u.Points st' b st.mem.next

theorem Trail.Points.base {t : Trail} {b m n : ℕ} (h : t.Points st b n) (hmn : m ≤ n) :
    t.Points st b m := by
  cases t with
  | kept =>
    obtain ⟨q, s, hq, hb, hs⟩ := h
    exact ⟨q, s, hq, Nat.le_trans hmn hb, hs⟩
  | _ => exact h

/-- A copy of the front of a string. -/
theorem copy_made {n : ℕ} (h : Str st.mem p (s ++ r)) (hn : s.length < n) : ∃ st₁ st₂,
    janetScalloc n st = .ok (st.mem.calloc n).1 st₁ ∧
    memcpy (st.mem.calloc n).1 p s.length st₁ = .ok () st₂ ∧ Extends st.mem st₂.mem ∧
    st₂.errctx = st.errctx ∧ st₂.calls = st.calls ∧ Str st₂.mem (st.mem.calloc n).1 s ∧
    st₂.mem.blocks (st.mem.calloc n).1.blk = some (s ++ List.replicate (n - s.length) '\x00') := by
  obtain ⟨st₁, st₂, h₁, h₂, hdone, hstr, hblk⟩ := copy_ok h hn
  refine ⟨st₁, st₂, h₁, h₂, hdone.mem, ?_, by rw [hdone.calls_eq, List.append_nil], hstr, hblk⟩
  obtain ⟨_, rfl⟩ := run_allocate.mp h₁
  obtain ⟨m, _, rfl⟩ := run_update.mp h₂
  rfl

/-- What releasing a copy does. -/
theorem copy_freed (h : Str st.mem q s) (hoff : q.off = 0) : ∃ m,
    janetSfree q st = .ok () { st with mem := m } ∧ m.next = st.mem.next ∧
    m.blocks = Function.update st.mem.blocks q.blk none := by
  obtain ⟨_, cs, _, hcs, _⟩ := h
  refine ⟨st.mem.put q.blk none (Mem.lt_next hcs), run_update.mpr ⟨_, ?_, rfl⟩, rfl, rfl⟩
  rw [Mem.free]
  split
  · rw [if_pos hoff]
  · next heq => rw [hcs] at heq; exact absurd heq (by simp)

theorem str_of_blocks {m m' : Mem} (h : Str m p s) (hb : m'.blocks p.blk = m.blocks p.blk) : Str m' p s := by
  obtain ⟨hnul, cs, rest, hcs, hd⟩ := h
  exact ⟨hnul, cs, rest, by rw [hb, hcs], hd⟩

variable (rt) in
/-- The last steps of a container: closing it and releasing the copy `q`. -/
theorem close_copy {b : ℕ} {t : Trail} (hf : InFrame inner st p s) (hst₁ : Extends st.mem st₁.mem)
    (he₁ : st₁.errctx = st.errctx) (hloop : Framed st₁ st₂) (hcalls : ∃ cs, st₁.calls = st.calls ++ cs ∧ Keyed cs)
    (hq : Str st₂.mem q r) (hoff : q.off = 0) (hyoung : st.mem.next ≤ q.blk) (hold : q.blk < st₁.mem.next)
    (hb : b = q.blk) (ht : Trailed st₁ st₂ b .own t) : ∃ st₃ st₄,
    callSdBusFunc rt openBus .closeContainer st₂ = .ok () st₃ ∧ janetSfree q st₃ = .ok () st₄ ∧
    Framed st st₄ ∧ (1 < st.errctx.depth → t.Points st₄ p.blk st.mem.next) ∧
    st.calls.length < st₄.calls.length := by
  subst hb
  have hq₃ : Str ({ st₂ with calls := st₂.calls ++ [.closeContainer] } : AppendState).mem q r := hq
  obtain ⟨m, hfree, hnext, hblocks⟩ := copy_freed hq₃ hoff
  have hext : Extends st.mem m := by
    refine ⟨by rw [hnext]; exact (hst₁.trans hloop.mem).next_le, fun c hc => ?_⟩
    rw [hblocks, Function.update_of_ne (by omega)]
    exact (hst₁.trans hloop.mem).same c hc
  obtain ⟨cs, hcs, hk⟩ := hcalls
  obtain ⟨ds, hds, hk'⟩ := hloop.calls
  have hcall₄ : st₂.calls ++ [.closeContainer] = st.calls ++ (cs ++ (ds ++ [.closeContainer])) := by
    rw [hds, hcs, List.append_assoc, List.append_assoc]
  refine ⟨_, _, call_ok rt _ _, hfree, ⟨hext, ?_, fun hd => ?_, _, hcall₄, ?_⟩, fun hd => ?_, ?_⟩
  · exact hloop.depth.trans (by rw [he₁])
  · obtain ⟨h₁, h₂⟩ := hloop.outer (by rw [he₁]; exact hd)
    rw [he₁] at h₁ h₂
    exact ⟨h₁, h₂⟩
  · exact keyed_append hk (keyed_append hk' (keyed_single fun s => by simp))
  · rcases ht with ⟨rfl, rfl⟩ | ⟨u, rfl, hu⟩
    · -- the loop was empty: the span is still the frame's own
      have hframe : InFrame inner { st₂ with calls := st₂.calls ++ [.closeContainer], mem := m } p s :=
        hf.extend hext he₁
      exact hframe.own (by rw [← he₁] at hd; exact hd)
    · cases u with
      | own =>
        obtain ⟨q', u, hsig, hblk, _, _, hpos⟩ := hu
        exact ⟨q', hsig, by rw [hblocks, hblk, Function.update_self], hpos⟩
      | kept =>
        obtain ⟨q', u, hsig, hbase, hu, hlen⟩ := hu
        refine ⟨q', u, hsig, Nat.le_trans hst₁.next_le hbase, str_of_blocks hu ?_, hlen⟩
        rw [hblocks, Function.update_of_ne (by omega)]
      | released =>
        obtain ⟨q', hsig, hnone, hpos⟩ := hu
        refine ⟨q', hsig, ?_, hpos⟩
        rw [hblocks]
        by_cases heq : q'.blk = q.blk
        · rw [heq, Function.update_self]
        · rw [Function.update_of_ne heq]
          exact hnone
  · simp only [hcall₄, List.length_append, List.length_cons, List.length_nil]
    omega

end frames

/-! ### Loops -/

section loops
variable {rt : Runtime} {st st' : AppendState} {p q cur : Ptr} {s sig : List Char} {inner : Bool}
  {rec : Ptr → Janet → Append Ptr} {verdict : List Char → Janet → Verdict}

theorem str_drop {m : Mem} {n : ℕ} (h : Str m p s) (hn : n ≤ s.length) : Str m (p.add n) (s.drop n) := by
  rw [← List.take_append_drop n s] at h
  have hrest := h.append
  rwa [List.length_take, Nat.min_eq_left hn] at hrest

theorem panicIf_raises {c : Prop} [Decidable c] (hc : c) (text : String) (hs : Str st.mem p s) :
    ∃ msg, panicIf c (withStr text p) st = .error (.panic msg) st := by
  have hcstr : cstr p st = .ok s st := run_cstr.mpr ⟨hs.cstr, rfl⟩
  rw [panicIf, if_pos hc, withStr]
  exact ⟨_, error_bind.mpr (.inr ⟨_, st, run_bind.mpr ⟨s, st, hcstr, run_pure.mpr ⟨rfl, rfl⟩⟩, rfl⟩)⟩

theorem panicIf_ok {c : Prop} [Decidable c] (hc : ¬ c) (msg : Append String) :
    panicIf c msg st = .ok () st := run_panicIf.mpr ⟨hc, rfl⟩

/-- The loop over the fields of a struct or over the arguments. -/
theorem loop_ends {excessive : String} {enter : Append Unit} {signature : Ptr}
    (henter : ∀ st, ∃ st', enter st = .ok () st' ∧ Framed st st') : ∀ {xs : List Janet} {s : List Char}
    {st : AppendState} {cur : Ptr} {t₀ : Trail}, (∀ x ∈ xs, Keeps rec verdict inner x) →
    Str st.mem cur s → Str st.mem signature sig → (inner = true ↔ 1 ≤ st.errctx.depth) →
    (1 ≤ st.errctx.depth → Readable st.mem st.errctx.sig₀ st.errctx.len₀) →
    Ends (appendLoop rec excessive enter signature cur xs) st (judgeLoop verdict s xs t₀)
      fun t q st' => Framed st st' ∧ Str st'.mem q (leftover s xs) ∧
        (1 ≤ st.errctx.depth → Trailed st st' cur.blk t₀ t)
  | [], s, st, cur, t₀, _, hs, _, _, _ =>
    ⟨cur, st, rfl, .refl st, hs, fun _ => .inl ⟨rfl, rfl⟩⟩
  | x :: xs, s, st, cur, t₀, hrec, hs, hsig, hin, hnamed => by
    rw [appendLoop, judgeLoop]
    refine .step (cursor_ok hs.read) ?_
    by_cases hempty : s = []
    · subst hempty
      rw [if_pos rfl]
      obtain ⟨msg, hraise⟩ := panicIf_raises (c := ([] : List Char).headD '\x00' = '\x00') rfl excessive hsig
      exact .raise hraise
    · have hne : s.headD '\x00' ≠ '\x00' := by
        cases s with
        | nil => exact absurd rfl hempty
        | cons c s => exact fun heq => hs.1 (by rw [← heq]; exact List.mem_cons_self)
      obtain ⟨st₁, hrun, hf₁⟩ := henter st
      rw [if_neg hempty]
      refine .step (panicIf_ok hne _) (.step hrun ?_)
      refine (hrec x (by simp) (hs.mono hf₁.mem) (by rw [hf₁.depth]; exact hin) fun hd => ?_).bind
        fun t q st₂ hw => ?_
      · rw [hf₁.depth] at hd
        exact hf₁.named hd (hnamed hd)
      obtain ⟨⟨k, hk, rfl⟩, hf₂, htrail, _⟩ := hw
      have hlt := stride_lt hempty hk
      have hf := hf₁.trans hf₂
      have hrest : Str st₂.mem (cur.add (k + 1)) (s.drop (k + 1)) := str_drop (hs.mono hf.mem) hlt
      have hnext : next (cur.add k) st₂ = .ok (cur.add (k + 1)) st₂ := by
        have hread : st₂.mem.read ((cur.add k).add 1) = some ((s.drop (k + 1)).headD '\x00') := by
          rw [Ptr.add_add]
          exact hrest.read
        exact run_next.mpr ⟨⟨_, hread⟩, (Ptr.add_add _ _ _).symm, rfl⟩
      simp only [hk]
      refine .step hnext ((loop_ends henter (fun y hy => hrec y (List.mem_cons_of_mem _ hy)) hrest
        (hsig.mono hf.mem) (by rw [hf.depth]; exact hin) fun hd => ?_).mono fun t' q st₃ h => ?_)
      · rw [hf.depth] at hd
        exact hf.named hd (hnamed hd)
      · obtain ⟨hf₃, hq, ht⟩ := h
        refine ⟨hf.trans hf₃, by rw [leftover, hk]; exact hq, fun hd => .inr ?_⟩
        rcases ht (by rw [hf.depth]; exact hd) with ⟨rfl, rfl⟩ | ⟨u, rfl, hu⟩
        · exact ⟨t, rfl, (htrail (by rw [hf₁.depth]; exact hd)).base hf₁.mem.next_le⟩
        · exact ⟨u, rfl, hu.base hf.mem.next_le⟩

/-- The loop over the elements of an array. -/
theorem elements_ends : ∀ {xs : List Janet} {st : AppendState} {t₀ : Trail},
    (∀ x ∈ xs, Keeps rec verdict true x) → Str st.mem q s → 1 ≤ st.errctx.depth →
    Readable st.mem st.errctx.sig₀ st.errctx.len₀ →
    Ends (appendElements rec q xs) st (judgeElements verdict s xs t₀)
      fun t _ st' => Framed st st' ∧ Trailed st st' q.blk t₀ t
  | [], st, t₀, _, _, _, _ => ⟨(), st, rfl, .refl st, .inl ⟨rfl, rfl⟩⟩
  | x :: xs, st, t₀, hrec, hs, hd, hnamed => by
    rw [appendElements, judgeElements]
    refine (hrec x (by simp) hs (iff_of_true rfl hd) fun _ => hnamed).bind fun t _ st₁ hw => ?_
    have hf := hw.framed
    refine (elements_ends (fun y hy => hrec y (List.mem_cons_of_mem _ hy)) (hs.mono hf.mem)
      (by rw [hf.depth]; exact hd) (hf.named hd hnamed)).mono fun t' _ st₂ h => ?_
    obtain ⟨hf₂, ht⟩ := h
    refine ⟨hf.trans hf₂, .inr ?_⟩
    rcases ht with ⟨rfl, rfl⟩ | ⟨u, rfl, hu⟩
    · exact ⟨t, rfl, hw.trail hd⟩
    · exact ⟨u, rfl, hu.base hf.mem.next_le⟩

/-- The key of an entry, in a state whose inner span is `stale` or not. -/
theorem key_ends {c : Code} {key : Janet} {stale : Bool} (hs : Str st.mem q (c.char :: s)) (hin : inner = true ↔ 1 < st.errctx.depth)
    (hnamed : Readable st.mem st.errctx.sig₀ st.errctx.len₀)
    (hstale : 1 < st.errctx.depth → if stale then Dangles st else
      Readable st.mem st.errctx.sig₁ st.errctx.len₁) :
    Ends (appendBasicType rt openBus q key) st (judgeKey rt inner stale (c.char :: s) key)
      fun _ _ st' => ∃ x, st' = { st with calls := st.calls ++ [basicCall x] } := by
  have hconv : converts rt (c.char :: s) key = (convert rt c key).isSome := by
    rw [converts, List.headD_cons, Code.ofChar_char, Option.bind_some]
  have hmis : mistyped rt (c.char :: s) key = typeFails rt c key := by
    rw [mistyped, List.headD_cons, Code.ofChar_char, Option.map_some, Option.getD_some]
  rw [judgeKey, hconv, hmis]
  cases hx : convert rt c key with
  | some x =>
    exact ⟨(), _, (run_appendBasicType hs.cons.1).mpr ⟨x, hx, by simp [openBus], rfl⟩, x, rfl⟩
  | none =>
    rw [if_neg (by simp)]
    by_cases hwrong : (inner && stale && typeFails rt c key) = true
    · rw [if_pos hwrong]
      simp only [Bool.and_eq_true] at hwrong
      have hdeep := hin.mp hwrong.1.1
      have hdangle := hstale hdeep
      rw [if_pos hwrong.1.2] at hdangle
      exact ⟨st, basic_faults hs.cons.1 hwrong.2 fun _ ty => hdangle.typeError hnamed hdeep ty key⟩
    · rw [if_neg hwrong]
      refine basic_raises hs.cons.1 (fun hfails => ⟨hnamed, fun hdeep => ?_⟩) hx
      have hfresh : ¬ stale = true := fun h => hwrong (by rw [hin.mpr hdeep, h, hfails]; rfl)
      have hread := hstale hdeep
      rwa [if_neg hfresh] at hread

/-- Whether the span of a value that is over can be read. -/
theorem Trail.Points.stale {t : Trail} {b base : ℕ} (h : t.Points st b base) :
    if decide (t = .released) then Dangles st else Readable st.mem st.errctx.sig₁ st.errctx.len₁ := by
  by_cases ht : t = .released
  · rw [if_pos (decide_eq_true ht)]
    rw [ht] at h
    exact h
  · rw [if_neg (by simpa using ht)]
    exact h.readable ht

/-- The loop over the entries of a dictionary. -/
theorem entries_ends {c : Code} : ∀ {kvs : List (Janet × Janet)} {st : AppendState} {t₀ : Trail}
    {stale : Bool}, (∀ kv ∈ kvs, Keeps rec verdict true kv.2) → Str st.mem q (c.char :: s) →
    1 ≤ st.errctx.depth → (inner = true ↔ 1 < st.errctx.depth) →
    Readable st.mem st.errctx.sig₀ st.errctx.len₀ →
    (1 < st.errctx.depth → if stale then Dangles st else
      Readable st.mem st.errctx.sig₁ st.errctx.len₁) →
    Ends (appendEntries rt openBus rec q kvs) st (judgeEntries rt verdict inner (c.char :: s) kvs t₀ stale)
      fun t _ st' => Framed st st' ∧ Trailed st st' q.blk t₀ t
  | [], st, t₀, _, _, _, _, _, _, _ => ⟨(), st, rfl, .refl st, .inl ⟨rfl, rfl⟩⟩
  | (key, value) :: kvs, st, t₀, stale, hrec, hs, hd, hin, hnamed, hstale => by
    rw [appendEntries, judgeEntries]
    refine .step (run_cstr.mpr ⟨hs.cstr, rfl⟩) (.step (call_ok rt _ st) ?_)
    obtain ⟨st₀, hst₀⟩ : ∃ st₀ : AppendState, st₀ = { st with
        calls := st.calls ++ [.openContainer .dictEntry (c.char :: s)] } := ⟨_, rfl⟩
    have hkey : Ends (appendBasicType rt openBus q key) st₀ (judgeKey rt inner stale (c.char :: s) key)
        fun _ _ st' => ∃ x, st' = { st₀ with calls := st₀.calls ++ [basicCall x] } := by
      rw [hst₀]
      exact key_ends hs hin hnamed hstale
    rw [← hst₀]
    refine hkey.bind fun _ _ st₁ hst₁ => ?_
    obtain ⟨x, rfl⟩ := hst₁
    -- the opening of the entry and its key
    obtain ⟨st₁, hst₁⟩ : ∃ st₁ : AppendState, st₁ = { st with
        calls := st.calls ++ [.openContainer .dictEntry (c.char :: s)] ++ [basicCall x] } := ⟨_, rfl⟩
    have hf₁ : Framed st st₁ := by
      rw [hst₁]
      refine ⟨.refl _, rfl, fun _ => ⟨rfl, rfl⟩, _, List.append_assoc _ _ _, fun _ _ => ⟨x, rfl⟩, ?_, trivial⟩
      exact fun s hs => absurd hs (basicCall_ne x _ _)
    rw [hst₀, ← hst₁]
    have hs₁ := hs.mono hf₁.mem
    refine .step (run_next.mpr ⟨⟨_, hs₁.cons.2.read⟩, rfl, rfl⟩) ?_
    refine (hrec (key, value) (by simp) hs₁.cons.2 (iff_of_true rfl (by rw [hf₁.depth]; exact hd))
      fun _ => hf₁.named hd hnamed).bind fun t _ st₂ hw => ?_
    have hf₂ : Framed st { st₂ with calls := st₂.calls ++ [.closeContainer] } :=
      hf₁.trans (hw.framed.trans (framed_call (by simp)))
    have ht : t.Points { st₂ with calls := st₂.calls ++ [.closeContainer] } q.blk st.mem.next :=
      (hw.trail (by rw [hf₁.depth]; exact hd)).base hf₁.mem.next_le
    refine .step (call_ok rt _ st₂) ((entries_ends (fun kv hkv => hrec kv (List.mem_cons_of_mem _ hkv))
      (hs.mono hf₂.mem) (by rw [hf₂.depth]; exact hd) (by rw [hf₂.depth]; exact hin)
      (hf₂.named hd hnamed) fun _ => ht.stale).mono fun t' _ st₃ h => ?_)
    obtain ⟨hf₃, htrail⟩ := h
    refine ⟨hf₂.trans hf₃, .inr ?_⟩
    rcases htrail with ⟨rfl, rfl⟩ | ⟨u, rfl, hu⟩
    · exact ⟨t, rfl, ht⟩
    · exact ⟨u, rfl, hu.base hf₂.mem.next_le⟩

end loops

/-! ### Branches -/

section branches
variable {rt : Runtime} {st : AppendState} {p : Ptr} {w : List Char} {inner : Bool} {v : Janet}
  {rec : Ptr → Janet → Append Ptr} {verdict : List Char → Janet → Verdict}

theorem scan_ok {f : List Char → Except String ℕ} {s : List Char} {n : ℕ} (hs : Str st.mem p s)
    (hn : f s = .ok n) : scan f p st = .ok n st := run_scan.mpr ⟨s, hs.cstr, hn, rfl⟩

theorem scan_raises {f : List Char → Except String ℕ} {s : List Char} {msg : String}
    (hs : Str st.mem p s) (hn : f s = .error msg) : scan f p st = .error (.panic msg) st := by
  have hcstr : cstr p st = .ok s st := run_cstr.mpr ⟨hs.cstr, rfl⟩
  rw [scan, bind_ok hcstr, hn]
  rfl

theorem inside_append {c d : Char} {u r : List Char} : inside (c :: (u ++ d :: r)) (u.length + 1) = u := by
  rw [inside, List.tail_cons, Nat.add_sub_cancel, List.take_left]

theorem framed_silent {enter : Append Unit} (h : ∀ st, enter st = .ok () st) :
    ∀ st, ∃ st', enter st = .ok () st' ∧ Framed st st' := fun st => ⟨st, h st, .refl st⟩

/-- What is known of the state behind a copy. -/
theorem InFrame.loopFrame (hf : InFrame inner st p w) {st₁ : AppendState} (hm : Extends st.mem st₁.mem)
    (he : st₁.errctx = st.errctx) : 1 ≤ st₁.errctx.depth ∧
      Readable st₁.mem st₁.errctx.sig₀ st₁.errctx.len₀ :=
  ⟨(hf.extend hm he).pos, (hf.extend hm he).named⟩

theorem struct_ends (hf : InFrame inner st p ('(' :: w))
    (hrec : ∀ x, x.depth < v.depth → Keeps rec verdict true x) :
    Ends (appendStructType rt openBus rec p v) st (judgeStruct verdict ('(' :: w) v)
      (Left st p ('(' :: w)) := by
  rw [appendStructType, judgeStruct]
  cases hm : matchBracket '(' ')' ('(' :: w) with
  | error msg => exact .raise (scan_raises hf.str hm)
  | ok n =>
    simp only
    refine .step (scan_ok hf.str hm) ?_
    by_cases hn : n < 2
    · rw [if_pos hn]
      obtain ⟨msg, hraise⟩ := panicIf_raises hn "Missing struct signature contents: " hf.str
      exact .raise hraise
    rw [if_neg hn]
    refine .step (panicIf_ok hn _) ?_
    obtain ⟨u, r, rfl, rfl⟩ := matchBracket_sound hm
    obtain ⟨st₁, st₂, h₁, h₂, hext, he, hcalls, hstr, -⟩ := copy_made hf.str.cons.2 (Nat.lt_succ_self u.length)
    have hclose : st₂.mem.read (p.add (u.length + 1)) = some ')' := by
      have hread := ((hf.str.cons.2).mono hext).append.cons.1
      rwa [Ptr.add_add, Nat.add_comm 1] at hread
    refine .step h₁ (.step h₂ (.step (run_skip.mpr ⟨⟨_, hclose⟩, rfl, rfl⟩) ?_))
    refine .step (run_cstr.mpr ⟨hstr.cstr, rfl⟩) (.step (call_ok rt _ st₂) ?_)
    obtain ⟨st₃, hst₃⟩ : ∃ st₃ : AppendState, st₃ = { st₂ with
      calls := st₂.calls ++ [.openContainer .struct u] } := ⟨_, rfl⟩
    rw [← hst₃]
    have hm₃ : st₃.mem = st₂.mem := by rw [hst₃]
    have he₃ : st₃.errctx = st.errctx := by rw [hst₃]; exact he
    have hext₃ : Extends st.mem st₃.mem := by rw [hm₃]; exact hext
    have hframe := hf.extend hext₃ he₃
    cases hxs : janetIndexedView v with
    | none =>
      obtain ⟨msg, hraise⟩ := getter_raises rt hframe.speaks hxs "indexed"
      exact .raise hraise
    | some xs =>
      refine .step (getter_ok hxs _) ?_
      simp only
      by_cases hempty : xs.length = 0
      · rw [if_pos hempty]
        refine .raise (e := "Empty struct: missing arguments") (s := st₃) ?_
        rw [panicIf, if_pos hempty]
        rfl
      rw [if_neg hempty, inside_append, judgeFields]
      refine .step (panicIf_ok hempty _) ?_
      obtain ⟨hd, hnamed⟩ := hf.loopFrame hext₃ he₃
      rw [← hm₃] at hstr
      refine (loop_ends (framed_silent fun _ => rfl) (fun x hx => hrec x (depth_indexed hxs hx)) hstr hstr
        (iff_of_true rfl hd) fun _ => hnamed).bind fun t q st₄ h => ?_
      obtain ⟨hf₄, hq, htrail⟩ := h
      refine .step (cursor_ok hq.read) ?_
      have hstr₄ := hstr.mono hf₄.mem
      by_cases hrest : leftover u xs = []
      · rw [if_pos hrest]
        refine .step (panicIf_ok (by rw [hrest]; simp) _) ?_
        obtain ⟨st₅, st₆, h₅, h₆, hfr, ht, hcalled⟩ := close_copy rt hf hext₃ he₃ hf₄
          ⟨[.openContainer .struct u], by rw [hst₃]; simp only [hcalls], keyed_single (by simp)⟩ hstr₄ rfl
          (Nat.le_refl _) hstr.blk_lt rfl (htrail hd)
        exact .step h₅ (.step h₆ ⟨_, _, rfl, ⟨_, by rw [stride_struct, hm], rfl⟩, hfr, ht, hcalled⟩)
      · rw [if_neg hrest]
        have hne : (leftover u xs).headD '\x00' ≠ '\x00' := by
          intro heq
          exact hrest (hq.eq_nil (by rw [hq.read, heq]))
        obtain ⟨msg, hraise⟩ := panicIf_raises hne "Arguments missing for struct signature: " hstr₄
        exact .raise hraise

/-- The walk over a dictionary, from its brace. -/
theorem dict_ends (hf : InFrame inner st p ('{' :: w))
    (hrec : ∀ x, x.depth < v.depth → Keeps rec verdict true x) :
    Ends (appendDictType rt openBus rec p v) st (judgeDict rt verdict inner ('{' :: w) v)
      fun t q st' => (∃ n, matchBracket '{' '}' ('{' :: w) = .ok n ∧ q = p.add n) ∧ Framed st st' ∧
        (1 < st.errctx.depth → t.Points st' p.blk st.mem.next) ∧ st.calls.length < st'.calls.length := by
  rw [appendDictType, judgeDict]
  cases hm : matchBracket '{' '}' ('{' :: w) with
  | error msg => exact .raise (scan_raises hf.str hm)
  | ok n =>
    simp only
    refine .step (scan_ok hf.str hm) ?_
    by_cases hn : n < 3
    · rw [if_pos hn]
      obtain ⟨msg, hraise⟩ := panicIf_raises hn "incomplete dictionary signature: " hf.str
      exact .raise hraise
    rw [if_neg hn]
    refine .step (panicIf_ok hn _) ?_
    obtain ⟨u, r, rfl, rfl⟩ := matchBracket_sound hm
    rw [inside_append]
    obtain ⟨k, u, rfl⟩ : ∃ k u', u = k :: u' := by
      cases u with
      | nil => simp at hn
      | cons k u => exact ⟨k, u, rfl⟩
    have hwhole : '{' :: ((k :: u) ++ '}' :: r) = ('{' :: ((k :: u) ++ ['}'])) ++ r := by simp
    have hlen : ('{' :: ((k :: u) ++ ['}'])).length = (k :: u).length + 1 + 1 := by simp
    have hstr := hf.str
    rw [hwhole] at hstr
    obtain ⟨st₁, st₂, h₁, h₂, hext, he, hcalls, hcopy, hblk⟩ := copy_made (n := (k :: u).length + 1 + 2)
      hstr (by omega)
    rw [hlen] at h₂
    have hclose : ∃ c, st₂.mem.read (p.add ((k :: u).length + 1)) = some c :=
      (hstr.mono hext).read_at (by rw [List.length_append, hlen]; omega)
    refine .step h₁ (.step h₂ (.step (run_skip.mpr ⟨hclose, rfl, rfl⟩) ?_))
    have hread : st₂.mem.read ((st.mem.calloc ((k :: u).length + 1 + 2)).1.add 1) = some k := hcopy.cons.2.cons.1
    refine .step (cursor_ok hread) ?_
    have hhead : (k :: u).headD '\x00' = k := rfl
    rw [hhead]
    by_cases hkey : isBasicType k = false
    · rw [if_pos hkey]
      obtain ⟨msg, hraise⟩ := panicIf_raises hkey "dictionary signature key must be a basic type: " hcopy
      exact .raise hraise
    rw [if_neg hkey]
    refine .step (panicIf_ok hkey _) ?_
    refine .step (run_cstr.mpr ⟨hcopy.cstr, rfl⟩) (.step (call_ok rt _ st₂) ?_)
    obtain ⟨st₃, hst₃⟩ : ∃ st₃ : AppendState, st₃ = { st₂ with
      calls := st₂.calls ++ [.openContainer .array ('{' :: ((k :: u) ++ ['}']))] } := ⟨_, rfl⟩
    rw [← hst₃]
    have hnul : '\x00' ∉ k :: u := fun hmem => hf.str.1 (by
      refine List.mem_cons_of_mem _ (List.mem_append_left _ hmem))
    -- the copy without its braces
    have hblk₃ : st₃.mem.blocks (st.mem.calloc ((k :: u).length + 1 + 2)).1.blk = some ('{' :: ((k :: u) ++
        '}' :: List.replicate ((k :: u).length + 1 + 2 - ('{' :: ((k :: u) ++ ['}'])).length) '\x00')) := by
      rw [hst₃, hblk]
      simp
    have hext₃ : Extends st.mem st₃.mem := by rw [hst₃]; exact hext
    obtain ⟨m₄, m₅, _, hmove, hwrite, hext₅, _, hstr₅⟩ :=
      memmove_strip hext₃ (Nat.le_refl st.mem.next) rfl hnul hblk₃
    obtain ⟨st₄, hst₄⟩ : ∃ st₄ : AppendState, st₄ = { st₃ with mem := m₄ } := ⟨_, rfl⟩
    obtain ⟨st₅, hst₅⟩ : ∃ st₅ : AppendState, st₅ = { st₃ with mem := m₅ } := ⟨_, rfl⟩
    have hrun₄ : memmove (st.mem.calloc ((k :: u).length + 1 + 2)).1
        ((st.mem.calloc ((k :: u).length + 1 + 2)).1.add 1) ((k :: u).length + 1 - 1) st₃ = .ok () st₄ :=
      run_update.mpr ⟨m₄, hmove, hst₄⟩
    have hrun₅ : update (fun m => m.write ((st.mem.calloc ((k :: u).length + 1 + 2)).1.add
        ((k :: u).length + 1 - 1)) ['\x00']) st₄ = .ok () st₅ :=
      run_update.mpr ⟨m₅, by rw [hst₄]; exact hwrite, by rw [hst₅, hst₄]⟩
    refine .step hrun₄ (.step hrun₅ ?_)
    have hm₅ : st₅.mem = m₅ := by rw [hst₅]
    have he₅ : st₅.errctx = st.errctx := by rw [hst₅, hst₃]; exact he
    have hcalls₅ : st₅.calls = st.calls ++ [.openContainer .array ('{' :: ((k :: u) ++ ['}']))] := by
      rw [hst₅, hst₃]
      simp only [hcalls]
    rw [← hm₅] at hext₅ hstr₅
    have hframe := hf.extend hext₅ he₅
    cases hkvs : janetDictionaryView v with
    | none =>
      obtain ⟨msg, hraise⟩ := getter_raises rt hframe.speaks hkvs "dictionary"
      exact .raise hraise
    | some kvs =>
      refine .step (getter_ok hkvs _) ?_
      obtain ⟨c, rfl⟩ : ∃ c : Code, c.char = k := by
        rcases isBasicType_iff.mp (Bool.not_eq_false _ ▸ hkey) with hc | rfl
        · exact hc
        · exact absurd List.mem_cons_self hnul
      refine (entries_ends (fun kv hkv => hrec kv.2 (depth_dictionary hkvs hkv)) hstr₅ hframe.pos
        hframe.inner_iff hframe.named fun hd => ?_).finish fun t _ st₆ h => ?_
      · rw [if_neg (by decide)]
        exact hframe.speaks.2 hd
      · obtain ⟨hf₆, htrail⟩ := h
        obtain ⟨st₇, st₈, h₇, h₈, hfr, ht, hcalled⟩ := close_copy rt hf hext₅ he₅ hf₆
          ⟨_, hcalls₅, keyed_single (by simp)⟩ (hstr₅.mono hf₆.mem) rfl (Nat.le_refl _) hstr₅.blk_lt rfl
          htrail
        exact .step h₇ (.step h₈ ⟨_, _, rfl, ⟨_, rfl, rfl⟩, hfr, ht, hcalled⟩)

theorem array_ends (hf : InFrame inner st p ('a' :: w))
    (hrec : ∀ x, x.depth < v.depth → Keeps rec verdict true x) :
    Ends (appendArrayType rt openBus rec p v) st (judgeArray rt verdict inner ('a' :: w) v)
      (Left st p ('a' :: w)) := by
  rw [appendArrayType, judgeArray, List.tail_cons]
  have hw := hf.str.cons.2
  refine .step (run_peek.mpr ⟨hw.read, rfl⟩) ?_
  have hnext : next p st = .ok (p.add 1) st := run_next.mpr ⟨⟨_, hw.read⟩, rfl, rfl⟩
  by_cases hbrace : w.headD '\x00' = '{'
  · rw [if_pos hbrace, if_pos hbrace]
    obtain ⟨u, rfl⟩ : ∃ u, w = '{' :: u := by
      cases w with
      | nil => exact absurd hbrace (by decide)
      | cons c u => exact ⟨u, by rw [← hbrace]; rfl⟩
    have hframe : InFrame inner st (p.add 1) ('{' :: u) := ⟨hw, hf.pos, hf.inner_iff, hf.named, hf.own⟩
    refine .step hnext ((dict_ends hframe hrec).mono fun t q st' h => ?_)
    obtain ⟨⟨n, hn, rfl⟩, hfr, ht, hcalled⟩ := h
    refine ⟨⟨1 + n, ?_, Ptr.add_add p 1 n⟩, hfr, ht, hcalled⟩
    rw [stride_array, findSubtype, if_pos rfl, findSubtype, if_neg (by decide), if_pos rfl, hn]
    rfl
  rw [if_neg hbrace, if_neg hbrace]
  by_cases hbyte : w.headD '\x00' = 'y'
  · rw [if_pos hbyte, if_pos hbyte]
    obtain ⟨u, rfl⟩ : ∃ u, w = 'y' :: u := by
      cases w with
      | nil => exact absurd hbyte (by decide)
      | cons c u => exact ⟨u, by rw [← hbyte]; rfl⟩
    refine .step hnext ?_
    cases hbs : janetBytesView v with
    | none =>
      obtain ⟨msg, hraise⟩ := getter_raises rt hf.speaks hbs "bytes"
      exact .raise hraise
    | some bs =>
      refine .step (getter_ok hbs _) (.step (call_ok rt _ st) ?_)
      refine ⟨_, _, rfl, ⟨1, rfl, rfl⟩, framed_call (by simp), fun hd => hf.own hd, ?_⟩
      simp
  rw [if_neg hbyte, if_neg hbyte]
  cases hm : findSubtype ('a' :: w) with
  | error msg => exact .raise (scan_raises hf.str hm)
  | ok n =>
    refine .step (scan_ok hf.str hm) ?_
    -- the copy is the front of what follows the `a`
    obtain ⟨u, r, rfl, rfl⟩ : ∃ u r, w = u ++ r ∧ n = u.length := by
      obtain ⟨u, c, r, hsplit, rfl⟩ := findSubtype_sound hm
      have hlen := congrArg List.length hsplit
      simp only [List.length_cons, List.length_append] at hlen
      exact ⟨w.take u.length, w.drop u.length, (List.take_append_drop _ _).symm,
        by rw [List.length_take]; omega⟩
    obtain ⟨st₁, st₂, h₁, h₂, hext, he, hcalls, hstr, -⟩ := copy_made hw (Nat.lt_succ_self u.length)
    have hskip : ∃ c, st₂.mem.read (p.add u.length) = some c :=
      (hf.str.mono hext).read_at (by simp only [List.length_cons, List.length_append]; omega)
    refine .step h₁ (.step h₂ (.step (run_skip.mpr ⟨hskip, rfl, rfl⟩) ?_))
    refine .step (run_cstr.mpr ⟨hstr.cstr, rfl⟩) (.step (call_ok rt _ st₂) ?_)
    obtain ⟨st₃, hst₃⟩ : ∃ st₃ : AppendState, st₃ = { st₂ with
      calls := st₂.calls ++ [.openContainer .array u] } := ⟨_, rfl⟩
    rw [← hst₃]
    have hm₃ : st₃.mem = st₂.mem := by rw [hst₃]
    have he₃ : st₃.errctx = st.errctx := by rw [hst₃]; exact he
    rw [← hm₃] at hext hstr
    have hframe := hf.extend hext he₃
    cases hxs : janetIndexedView v with
    | none =>
      obtain ⟨msg, hraise⟩ := getter_raises rt hframe.speaks hxs "indexed"
      exact .raise hraise
    | some xs =>
      refine .step (getter_ok hxs _) ?_
      simp only [List.take_left]
      refine (elements_ends (fun x hx => hrec x (depth_indexed hxs hx)) hstr hframe.pos hframe.named).finish
        fun t _ st₄ h => ?_
      obtain ⟨hf₄, htrail⟩ := h
      obtain ⟨st₅, st₆, h₅, h₆, hfr, ht, hcalled⟩ := close_copy rt hf hext he₃ hf₄
        ⟨[.openContainer .array u], by rw [hst₃]; simp only [hcalls], keyed_single (by simp)⟩
        (hstr.mono hf₄.mem) rfl (Nat.le_refl _) hstr.blk_lt rfl htrail
      exact .step h₅ (.step h₆ ⟨_, _, rfl, ⟨_, by rw [stride_array, hm], rfl⟩, hfr, ht, hcalled⟩)

theorem gettuple_raises (hsp : Speaks st) {x : Janet} (hx : ∀ xs, x ≠ .tuple xs) :
    ∃ msg, gettuple rt x st = .error (.panic msg) st := by
  cases x with
  | tuple xs => exact absurd rfl (hx xs)
  | _ => exact getter_raises _ hsp rfl _

theorem judgeVariant_other (h : ∀ bs x, v ≠ .tuple [.string bs, x]) : judgeVariant verdict v = .raises := by
  unfold judgeVariant
  split
  · next bs x => exact absurd rfl (h bs x)
  · rfl

theorem variant_ends (hf : InFrame inner st p ('v' :: w))
    (hrec : ∀ x, x.depth < v.depth → Keeps rec verdict true x) :
    Ends (appendVariantType rt openBus rec p v) st (judgeVariant verdict v) (Left st p ('v' :: w)) := by
  rw [appendVariantType]
  cases v with
  | tuple xs =>
    have htuple : gettuple rt (.tuple xs) st = .ok xs st := run_getter.mpr ⟨rfl, rfl⟩
    refine .step htuple ?_
    rcases xs with _ | ⟨sig, _ | ⟨x, _ | ⟨y, ys⟩⟩⟩
    · exact Ends.panic
    · rw [judgeVariant_other (by simp)]
      exact Ends.panic
    · cases sig with
      | string bs =>
        rw [judgeVariant]
        by_cases hnul : 0 ∈ bs
        · have hnone : janetGetcbytes bs = none := dif_neg (not_not.mpr hnul)
          rw [if_pos hnul]
          simp only [hnone]
          exact Ends.panic
        have hsome : janetGetcbytes bs = some ⟨bs, hnul⟩ := dif_pos hnul
        have hchars : bs.map Char.ofUInt8 = chars bs := rfl
        have hstr := alloc_str (m := st.mem) (r := []) (fun h => hnul (nul_mem_chars.mp h))
        have hext := alloc_extends st.mem (chars bs ++ ['\x00'])
        rw [if_neg hnul]
        simp only [hsome, hchars]
        obtain ⟨q, hq⟩ : ∃ q, q = (st.mem.alloc (chars bs ++ ['\x00'])).1 := ⟨_, rfl⟩
        obtain ⟨st₁, hst₁⟩ : ∃ st₁ : AppendState, st₁ = { st with
          mem := (st.mem.alloc (chars bs ++ ['\x00'])).2 } := ⟨_, rfl⟩
        have halloc : allocate (·.alloc (chars bs ++ ['\x00'])) st = .ok q st₁ :=
          run_allocate.mpr ⟨hq, hst₁⟩
        have hstr₁ : Str st₁.mem q (chars bs) := by rw [hst₁, hq]; exact hstr
        refine .step halloc (.step (run_cstr.mpr ⟨hstr₁.cstr, rfl⟩) (.step (call_ok rt _ st₁) ?_))
        have hf₁ : Framed st { st₁ with calls := st₁.calls ++ [.openContainer .variant (chars bs)] } := by
          rw [hst₁]
          exact ⟨hext, rfl, fun _ => ⟨rfl, rfl⟩, _, rfl, keyed_single (by simp)⟩
        have hvalue : Ends (rec q x) { st₁ with calls := st₁.calls ++ [.openContainer .variant (chars bs)] }
            (verdict (chars bs) x)
            (Walked { st₁ with calls := st₁.calls ++ [.openContainer .variant (chars bs)] } q (chars bs)) :=
          hrec x (depth_indexed rfl (by simp)) hstr₁
            (iff_of_true rfl (by rw [hf₁.depth]; exact hf.pos)) fun _ => hf₁.named hf.pos hf.named
        refine hvalue.bind fun t _ st₂ hw => ?_
        refine .step (call_ok rt _ st₂) ⟨_, _, rfl, ⟨0, rfl, rfl⟩, ?_, fun _ => ?_, ?_⟩
        · exact hf₁.trans (hw.framed.trans (framed_call (by simp)))
        · have ht := hw.trail (by rw [hf₁.depth]; exact hf.pos)
          cases t with
          | own =>
            obtain ⟨q', u, hsig, hblk, hu⟩ := ht
            exact ⟨q', u, hsig, by rw [hblk, hq]; exact Nat.le_refl _, hu⟩
          | kept => exact ht.base hf₁.mem.next_le
          | released => exact ht
        · have hcalls : st₁.calls = st.calls := by rw [hst₁]
          have hcalled := hw.called
          simp only [hcalls, List.length_append, List.length_cons, List.length_nil] at hcalled ⊢
          omega
      | _ => exact Ends.panic
    · rw [judgeVariant_other (by simp)]
      exact Ends.panic
  | _ =>
    refine (gettuple_raises hf.speaks ?_).elim fun msg hraise => .raise hraise
    simp

/-- A basic type takes one call. -/
theorem basicType_ends {c : Code} (hf : InFrame inner st p (c.char :: w)) :
    Ends (appendBasicType rt openBus p v) st
      (if converts rt (c.char :: w) v then .done .own else .raises)
      fun t _ st' => t = .own ∧ ∃ x, st' = { st with calls := st.calls ++ [basicCall x] } := by
  have hkey : Ends (appendBasicType rt openBus p v) st (judgeKey rt inner false (c.char :: w) v)
      fun _ _ st' => ∃ x, st' = { st with calls := st.calls ++ [basicCall x] } :=
    key_ends hf.str hf.inner_iff hf.named fun hd => by
      rw [if_neg (by decide)]
      exact hf.speaks.2 hd
  have hfresh : judgeKey rt inner false (c.char :: w) v =
      if converts rt (c.char :: w) v then .done .own else .raises := by simp [judgeKey]
  rw [hfresh] at hkey
  by_cases hconv : converts rt (c.char :: w) v = true
  · rw [if_pos hconv] at hkey ⊢
    obtain ⟨a, st', hrun, hst'⟩ := hkey
    exact ⟨a, st', hrun, rfl, hst'⟩
  · rw [if_neg hconv] at hkey ⊢
    exact hkey

variable (rt v) in
/-- The branches, on a string that is not at its end. -/
theorem branch_ends {s : List Char} (hf : InFrame inner st p s) (hne : s ≠ [])
    (hspan : (spanNextType s).isOk = true) (hrec : ∀ x, x.depth < v.depth → Keeps rec verdict true x) :
    Ends (appendBranch rt openBus rec (s.headD '\x00') p v) st (judgeBody rt verdict inner s v)
      (Left st p s) := by
  obtain ⟨ch, w, rfl⟩ : ∃ ch w, s = ch :: w := List.exists_cons_of_ne_nil hne
  rw [judgeBody, if_neg hne, if_neg (by rw [hspan]; decide), List.headD_cons, appendBranch]
  by_cases hbasic : isBasicType ch = true
  · rw [if_pos hbasic, if_pos hbasic]
    obtain ⟨c, rfl⟩ : ∃ c : Code, c.char = ch := by
      rcases isBasicType_iff.mp hbasic with hc | rfl
      · exact hc
      · exact absurd List.mem_cons_self hf.str.1
    refine (basicType_ends hf).finish fun t _ st₁ h => ?_
    obtain ⟨rfl, x, rfl⟩ := h
    refine ⟨_, _, rfl, ⟨0, stride_atom (by simp [isBasicType_char]), rfl⟩,
      framed_call fun s => basicCall_ne x _ _, fun hd => hf.own hd, by simp⟩
  rw [if_neg hbasic, if_neg hbasic]
  by_cases hv : ch = 'v'
  · subst hv
    rw [if_pos rfl, if_pos rfl]
    exact variant_ends hf hrec
  rw [if_neg hv, if_neg hv]
  by_cases hp : ch = '('
  · subst hp
    rw [if_pos rfl, if_pos rfl]
    exact struct_ends hf hrec
  rw [if_neg hp, if_neg hp]
  by_cases ha : ch = 'a'
  · subst ha
    rw [if_pos rfl]
    exact array_ends hf hrec
  · -- `span_next_type` has refused every other character
    refine absurd hspan ?_
    simp [spanNextType, hbasic, hv, hp, ha, Except.isOk, Except.toBool]

end branches

/-! ### The walker -/

section walker
variable {rt : Runtime} {st : AppendState} {p : Ptr} {v : Janet}

/-- What `dbus_errctx_set` does: the span of the argument's own type, or of a type below it. -/
theorem errctxSet_run (p : Ptr) (len : ℕ) (st : AppendState) : ∃ st', dbusErrctxSet p len st = .ok () st' ∧
    st'.mem = st.mem ∧ st'.calls = st.calls ∧ st'.errctx.depth = st.errctx.depth + 1 ∧
    (1 ≤ st.errctx.depth → st'.errctx.sig₁ = some p ∧ st'.errctx.len₁ = len ∧
      st'.errctx.sig₀ = st.errctx.sig₀ ∧ st'.errctx.len₀ = st.errctx.len₀) ∧
    (¬ 1 ≤ st.errctx.depth → st'.errctx.sig₀ = some p ∧ st'.errctx.len₀ = len) := by
  refine ⟨_, rfl, rfl, rfl, ?_, fun hd => ?_, fun hd => ?_⟩
  · dsimp only
    split <;> rfl
  · dsimp only
    rw [if_pos (Nat.lt_succ_of_le hd)]
    exact ⟨rfl, rfl, rfl, rfl⟩
  · dsimp only
    rw [if_neg (fun h => hd (Nat.le_of_lt_succ h))]
    exact ⟨rfl, rfl⟩

/-- The frame it makes. -/
theorem frame_set {inner : Bool} {s : List Char} {len : ℕ} (hs : Str st.mem p s) (hlen : len ≤ s.length)
    (hpos : 0 < len) (hin : inner = true ↔ 1 ≤ st.errctx.depth)
    (hnamed : 1 ≤ st.errctx.depth → Readable st.mem st.errctx.sig₀ st.errctx.len₀) :
    ∃ st', dbusErrctxSet p len st = .ok () st' ∧ InFrame inner st' p s ∧ st'.mem = st.mem ∧
      st'.calls = st.calls ∧ st'.errctx.depth = st.errctx.depth + 1 ∧
      (1 ≤ st.errctx.depth → st'.errctx.sig₀ = st.errctx.sig₀ ∧ st'.errctx.len₀ = st.errctx.len₀) := by
  obtain ⟨st', hrun, hm, hcalls, hdepth, hinner, houter⟩ := errctxSet_run p len st
  refine ⟨st', hrun, ⟨hm ▸ hs, by omega, by rw [hin]; omega, ?_, fun hd => ?_⟩, hm, hcalls, hdepth,
    fun hd => (hinner hd).2.2⟩
  · rw [hm]
    by_cases hd : 1 ≤ st.errctx.depth
    · obtain ⟨_, _, h₀, hl₀⟩ := hinner hd
      rw [h₀, hl₀]
      exact hnamed hd
    · obtain ⟨h₀, hl₀⟩ := houter hd
      rw [h₀, hl₀]
      exact ⟨p, s, rfl, hs, hlen, hpos⟩
  · obtain ⟨h₁, hl₁, _⟩ := hinner (by omega)
    exact ⟨p, s, h₁, rfl, hm ▸ hs, by omega, by omega⟩

theorem matchBracket_pos {opn cls : Char} {s : List Char} {n : ℕ} (h : matchBracket opn cls s = .ok n) :
    0 < n := by
  cases s with
  | nil => simp [matchBracket, matchLoop] at h
  | cons c s =>
    obtain ⟨w, r, _, rfl⟩ := matchBracket_sound h
    exact Nat.succ_pos _

/-- The counted span is in the string, and not empty. -/
theorem span_le {s : List Char} {len : ℕ} (hne : s ≠ []) (h : spanNextType s = .ok len) :
    0 < len ∧ len ≤ s.length := by
  have hlen : 0 < s.length := List.length_pos_of_ne_nil hne
  rw [spanNextType] at h
  split at h
  · rw [← Except.ok.inj h]
    exact ⟨Nat.one_pos, hlen⟩
  · split at h
    · cases hf : findSubtype s with
      | error e => rw [hf] at h; simp [Except.map] at h
      | ok n =>
        rw [hf] at h
        obtain ⟨w, c, r, rfl, rfl⟩ := findSubtype_sound hf
        obtain rfl : 1 + w.length = len := Except.ok.inj h
        simp only [List.length_append, List.length_cons]
        omega
    · split at h
      · refine ⟨matchBracket_pos h, ?_⟩
        cases s with
        | nil => exact absurd rfl hne
        | cons c s =>
          obtain ⟨w, r, rfl, rfl⟩ := matchBracket_sound h
          simp only [List.length_cons, List.length_append]
          omega
      · exact absurd h (by simp)

theorem require_ok {c : Prop} [Decidable c] (hc : c) : require c st = .ok () st := run_require.mpr ⟨hc, rfl⟩

theorem get_ok : (get : Append AppendState) st = .ok st st := rfl

/-- The guarded walker keeps to the verdict, by induction on the depth it may go to. -/
theorem guarded_keeps (rt : Runtime) (n : ℕ) : ∀ (inner : Bool) (v : Janet), v.depth < n →
    Keeps (guardedCompleteType rt openBus n) (judge rt n inner) inner v := by
  induction n with
  | zero => exact fun _ _ h => absurd h (Nat.not_lt_zero _)
  | succ n ih =>
    intro inner v hv st p s hs hin hnamed
    have hrec : ∀ x, x.depth < v.depth → Keeps (guardedCompleteType rt openBus n) (judge rt n true) true x :=
      fun x hx => ih true x (Nat.lt_of_lt_of_le hx (Nat.le_of_lt_succ hv))
    rw [guardedCompleteType, judge, guarded]
    refine .step (run_cstr.mpr ⟨hs.cstr, rfl⟩) ?_
    by_cases hempty : s = []
    · rw [judgeBody, if_pos hempty]
      exact .fault (error_require.mpr ⟨not_not.mpr hempty, rfl, rfl⟩)
    refine .step (require_ok hempty) (.step get_ok ?_)
    rw [appendCompleteBody]
    cases hspan : spanNextType s with
    | error msg =>
      rw [judgeBody, if_neg hempty, if_pos (by rw [hspan]; rfl)]
      exact .raise (error_bind.mpr (.inl (scan_raises hs hspan)))
    | ok len =>
      obtain ⟨hpos, hlen⟩ := span_le hempty hspan
      obtain ⟨st₁, hset, hframe, hm₁, hcalls₁, hd₁, hsig₁⟩ := frame_set hs hlen hpos hin hnamed
      have hbranch := branch_ends rt v hframe hempty (by rw [hspan]; rfl) hrec
      have hbody : Ends (appendCompleteBody rt openBus (guardedCompleteType rt openBus n) p v) st
          (judgeBody rt (judge rt n true) inner s v) (Walked st p s) := by
        rw [appendCompleteBody]
        refine .step (scan_ok hs hspan) (.step hset (.step (cursor_ok hframe.str.read) ?_))
        refine hbranch.finish fun t q st₂ hleft => ?_
        obtain ⟨hmoved, hf, htrail, hcalled⟩ := hleft
        rw [hm₁, hd₁] at htrail
        obtain ⟨st₃, hst₃⟩ : ∃ st₃ : AppendState, st₃ = { st₂ with errctx := { st₂.errctx with
          depth := st₂.errctx.depth - 1 } } := ⟨_, rfl⟩
        have hexit : dbusErrctxExit st₂ = .ok () st₃ := run_modify.mpr hst₃
        have hpoints : 1 ≤ st.errctx.depth → t.Points st₃ p.blk st.mem.next := by
          intro hd
          have ht := htrail (Nat.succ_le_succ hd)
          rw [hst₃]
          cases t <;> exact ht
        refine .step hexit ⟨q, st₃, rfl, hmoved, ⟨?_, ?_, fun hd => ?_, ?_⟩, hpoints, ?_⟩
        · rw [hst₃, ← hm₁]; exact hf.mem
        · rw [hst₃]
          simp only [hf.depth, hd₁, Nat.add_sub_cancel]
        · rw [hst₃, ← (hsig₁ hd).1, ← (hsig₁ hd).2]
          exact hf.outer hframe.pos
        · rw [hst₃, ← hcalls₁]; exact hf.calls
        · rw [hst₃, ← hcalls₁]; exact hcalled
      refine hbody.finish fun t q st₂ hw => .step get_ok ?_
      obtain ⟨k, hk, rfl⟩ := hw.moved
      have hlt := stride_lt hempty hk
      have hinside : p.off + k < p.off + s.length := Nat.add_lt_add_left hlt _
      exact .step (require_ok ⟨rfl, Nat.le_add_right _ _, hinside⟩)
        (.step (require_ok hw.called) ⟨_, st₂, rfl, hw⟩)

variable (rt) in
/-- The guarded encoder keeps to the verdict on a whole signature. -/
theorem guardedData_ends {s : List Char} (args : List Janet) (hs : Str st.mem p s) :
    Ends (guardedData rt openBus p args) st (judgeData rt s args)
      fun _ _ st' => ∃ cs, st'.calls = st.calls ++ cs ∧ Keyed cs := by
  obtain ⟨st₁, hst₁⟩ : ∃ st₁ : AppendState, st₁ = { st with errctx := ⟨none, 0, none, 0, 0, 0⟩ } := ⟨_, rfl⟩
  have hreset : dbusErrctxReset st = .ok () st₁ := run_modify.mpr hst₁
  have hs₁ : Str st₁.mem p s := by rw [hst₁]; exact hs
  have hd₁ : ¬ 1 ≤ st₁.errctx.depth := by rw [hst₁]; exact Nat.not_succ_le_zero 0
  have hinc : ∀ st, ∃ st', dbusErrctxInc st = .ok () st' ∧ Framed st st' := fun st =>
    ⟨_, rfl, .refl _, rfl, fun _ => ⟨rfl, rfl⟩, [], (List.append_nil _).symm, trivial⟩
  rw [guardedData, judgeData, judgeFields]
  refine .step hreset ((loop_ends hinc (fun x hx => guarded_keeps rt _ false x
    (Nat.lt_succ_of_le (depth_le_all hx))) hs₁ hs₁ (iff_of_false (by decide) hd₁) fun hd =>
    absurd hd hd₁).bind fun t q st₂ h => ?_)
  obtain ⟨hf, hq, _⟩ := h
  refine .step (cursor_ok hq.read) ?_
  by_cases hrest : leftover s args = []
  · rw [if_pos hrest]
    obtain ⟨cs, hcs, hk⟩ := hf.calls
    exact .step (panicIf_ok (by rw [hrest]; simp) _) ⟨q, st₂, rfl, cs, by rw [hcs, hst₁], hk⟩
  · rw [if_neg hrest]
    have hne : (leftover s args).headD '\x00' ≠ '\x00' := by
      intro heq
      exact hrest (hq.eq_nil (by rw [hq.read, heq]))
    obtain ⟨msg, hraise⟩ := panicIf_raises hne "Arguments missing for signature: " (hs₁.mono hf.mem)
    exact .raise hraise

variable (rt) in
theorem call_refused {sd : SdBus} {c : Call} (hrv : sd st.calls c < 0) : ∃ msg,
    callSdBusFunc rt sd c st = .error (.panic msg) { st with calls := st.calls ++ [c] } := by
  obtain ⟨msg, hmsg⟩ : ∃ msg, msg = "failed to call " ++ c.name ++ ": " ++ rt.strerror (-sd st.calls c) := ⟨_, rfl⟩
  have hpanic : panicIf (sd st.calls c < 0) (pure msg) { st with calls := st.calls ++ [c] } =
      .error (.panic msg) { st with calls := st.calls ++ [c] } := by
    rw [panicIf, if_pos hrv]
    rfl
  rw [hmsg] at hpanic
  exact ⟨_, hpanic⟩

theorem follows_openBus (rt : Runtime) (sd : SdBus) (c : Call) :
    Follows (fun e => ∀ msg, e ≠ .panic msg) (callSdBusFunc rt sd c) (callSdBusFunc rt openBus c) := by
  intro st
  constructor
  · intro a st' h
    rw [(run_call.mp h).2]
    exact call_ok rt c st
  · intro e st' he h
    by_cases hrv : sd st.calls c < 0
    · obtain ⟨msg, heq⟩ := call_refused rt hrv
      exact absurd (EStateM.Result.error.inj (heq.symm.trans h)).1.symm (he msg)
    · have hrun : callSdBusFunc rt sd c st = .ok () { st with calls := st.calls ++ [c] } :=
        run_call.mpr ⟨hrv, rfl⟩
      rw [hrun] at h
      exact absurd h (by simp)

/-- Whatever sd-bus answers, the encoder returns or raises and stays in bounds, if the verdict is not
    that it goes wrong. -/
theorem total_of_verdict {s : List Char} {args : List Janet} (hs : Str st.mem p s)
    (hright : judgeData rt s args ≠ .wrong) (sd : SdBus) : Total rt sd p args st := by
  have hends := guardedData_ends rt args hs
  have hopen := follows_guardedData p args (follows_openBus rt sd) st
  have hdata : (∀ a st', guardedData rt sd p args st = .ok a st' → appendData rt sd p args st = .ok a st') ∧
      ∀ e st', (∃ msg, e = .panic msg) → guardedData rt sd p args st = .error e st' →
        appendData rt sd p args st = .error e st' := follows_data p args (by simp) st
  cases hrun : guardedData rt sd p args st with
  | ok q st' =>
    refine .inl ⟨q, st', ?_⟩
    have hrun' := hopen.1 q st' hrun
    cases hv : judgeData rt s args with
    | wrong => exact absurd hv hright
    | raises =>
      rw [hv] at hends
      obtain ⟨msg, st₁, herr⟩ := hends
      exact absurd (herr.symm.trans hrun') (by simp)
    | done t =>
      rw [hv] at hends
      obtain ⟨q', st₁, hok, cs, hcs, hk⟩ := hends
      obtain ⟨rfl, rfl⟩ := EStateM.Result.ok.inj (hok.symm.trans hrun')
      exact ⟨cs, hrun, hdata.1 _ _ hrun, hcs, hk⟩
  | error e st' =>
    by_cases he : ∃ msg, e = .panic msg
    · obtain ⟨msg, rfl⟩ := he
      exact .inr ⟨msg, st', hrun, hdata.2 _ _ ⟨msg, rfl⟩ hrun⟩
    · have hrun' := hopen.2 e st' (fun msg heq => he ⟨msg, heq⟩) hrun
      cases hv : judgeData rt s args with
      | wrong => exact absurd hv hright
      | raises =>
        rw [hv] at hends
        obtain ⟨msg, st₁, herr⟩ := hends
        exact absurd ⟨msg, (EStateM.Result.error.inj (herr.symm.trans hrun')).1.symm⟩ he
      | done t =>
        rw [hv] at hends
        obtain ⟨q', st₁, hok, _⟩ := hends
        exact absurd (hok.symm.trans hrun') (by simp)

/-- And only then. -/
theorem appendData_total_iff (rt : Runtime) (st : AppendState) (p : Ptr) (s : List Char) (args : List Janet)
    (hs : Str st.mem p s) : (∀ sd, Total rt sd p args st) ↔ judgeData rt s args ≠ .wrong := by
  refine ⟨fun htotal hwrong => ?_, total_of_verdict hs⟩
  have hends := guardedData_ends rt args hs
  rw [hwrong] at hends
  obtain ⟨st', hfault⟩ := hends
  rcases htotal openBus with ⟨q, st₁, cs, hok, _⟩ | ⟨msg, st₁, herr, _⟩
  · exact absurd (hfault.symm.trans hok) (by simp)
  · exact absurd (EStateM.Result.error.inj (hfault.symm.trans herr)).1 (by simp)

/-- An array of one string: the encoder is total. -/
theorem appendData_total_iff_strings : (∀ sd, Total silentRuntime sd ⟨0, 0⟩
    [.array [.string [104, 105]]] (initial ['a', 's'])) ∧
    judgeData silentRuntime ['a', 's'] [.array [.string [104, 105]]] = .done .released := by
  have hverdict : judgeData silentRuntime ['a', 's'] [.array [.string [104, 105]]] = .done .released := rfl
  have hs : Str (initial ['a', 's']).mem ⟨0, 0⟩ ['a', 's'] := initial_str (by decide)
  exact ⟨(appendData_total_iff silentRuntime (initial ['a', 's']) ⟨0, 0⟩ ['a', 's']
    [.array [.string [104, 105]]] hs).mpr (by rw [hverdict]; decide), hverdict⟩

/-- An array of one dictionary, whose second key is no string, behind a value that is an array. -/
def misKeyed : List Janet := [.array [.table [(.string [97], .array [.string [120]]),
  (.boolean true, .array [.string [121]])]]]

/-- The run read what it must not. -/
def faulted (r : EStateM.Result Stop AppendState Ptr) : Bool :=
  match r with
  | .error .fault _ => true
  | _ => false

theorem faulted_iff {r : EStateM.Result Stop AppendState Ptr} : faulted r = true ↔ ∃ st, r = .error .fault st := by
  cases r with
  | ok q st => simp [faulted]
  | error e st => cases e <;> simp [faulted]

/-- The error about the key is formatted from the copy of the signature of the value before it. -/
theorem appendData_misKeyed : (∃ st, appendData silentRuntime checkingBus ⟨0, 0⟩ misKeyed
    (initial ['a', 'a', '{', 's', 'a', 's', '}']) = .error .fault st) ∧
    ¬ Total silentRuntime checkingBus ⟨0, 0⟩ misKeyed (initial ['a', 'a', '{', 's', 'a', 's', '}']) := by
  obtain ⟨st, hfault⟩ : ∃ st, appendData silentRuntime checkingBus ⟨0, 0⟩ misKeyed
      (initial ['a', 'a', '{', 's', 'a', 's', '}']) = .error .fault st := faulted_iff.mp (by decide +kernel)
  refine ⟨⟨st, hfault⟩, fun htotal => ?_⟩
  rcases htotal with ⟨q, st₁, cs, _, hok, _⟩ | ⟨msg, st₁, _, herr⟩
  · exact absurd (hfault.symm.trans hok) (by simp)
  · exact absurd (EStateM.Result.error.inj (hfault.symm.trans herr)).1 (by simp)

end walker

end JanetSdbus.Message
