import JanetSdbus.Message.Denote

/-! When a piece of the encoder returns.

    One equivalence for each construct and each primitive: `x st = .ok a st'` on the left, what it
    takes and does on the right. Rewriting with them turns a return of a composed function into the
    chain of its steps, and the other way round. -/

namespace JanetSdbus.Message
open DBus Schemes.CMemory

variable {α β : Type} {rt : Runtime} {sd : SdBus} {st st' : AppendState}

/-! ### Control -/

@[simp] theorem run_bind {x : Append α} {f : α → Append β} {b : β} :
    (x >>= f) st = .ok b st' ↔ ∃ a s, x st = .ok a s ∧ f a s = .ok b st' := by
  cases hx : x st with
  | ok a s => simp [bind, EStateM.bind, hx]
  | error e s => simp [bind, EStateM.bind, hx]

@[simp] theorem run_map {x : Append α} {f : α → β} {b : β} :
    (f <$> x) st = .ok b st' ↔ ∃ a, x st = .ok a st' ∧ b = f a := by
  cases hx : x st with
  | ok a s => simp [Functor.map, EStateM.map, hx]; tauto
  | error e s => simp [Functor.map, EStateM.map, hx]

@[simp] theorem run_pure {a b : α} : (pure a : Append α) st = .ok b st' ↔ b = a ∧ st' = st := by
  have heq : (pure a : Append α) st = .ok a st := rfl
  rw [heq, EStateM.Result.ok.injEq, eq_comm, @eq_comm _ st]

@[simp] theorem run_panic {msg : String} {a : α} : ¬ (janetPanic msg : Append α) st = .ok a st' := by
  intro h
  have heq : (janetPanic msg : Append α) st = .error (.panic msg) st := rfl
  rw [heq] at h
  exact absurd h (by simp)

@[simp] theorem run_throw {e : Stop} {a : α} : ¬ (throw e : Append α) st = .ok a st' := by
  intro h
  have heq : (throw e : Append α) st = .error e st := rfl
  rw [heq] at h
  exact absurd h (by simp)

@[simp] theorem run_get {s : AppendState} :
    (get : Append AppendState) st = .ok s st' ↔ s = st ∧ st' = st := by
  have heq : (get : Append AppendState) st = .ok st st := rfl
  rw [heq, EStateM.Result.ok.injEq, eq_comm, @eq_comm _ st]

@[simp] theorem run_set {s : AppendState} {u : Unit} :
    (set s : Append Unit) st = .ok u st' ↔ st' = s := by
  have heq : (set s : Append Unit) st = .ok () s := rfl
  rw [heq, EStateM.Result.ok.injEq, @eq_comm _ s]
  simp

@[simp] theorem run_modify {f : AppendState → AppendState} {u : Unit} :
    (modify f : Append Unit) st = .ok u st' ↔ st' = f st := by
  have heq : (modify f : Append Unit) st = .ok () (f st) := rfl
  rw [heq, EStateM.Result.ok.injEq, @eq_comm _ (f st)]
  simp

@[simp] theorem run_panicIf {c : Prop} [Decidable c] {msg : Append String} {u : Unit} :
    panicIf c msg st = .ok u st' ↔ ¬ c ∧ st' = st := by
  rw [panicIf]
  by_cases h : c
  · simp [h]
  · simp [h]

/-! ### Memory and cursors -/

@[simp] theorem run_access {f : Mem → Option α} {a : α} :
    access f st = .ok a st' ↔ f st.mem = some a ∧ st' = st := by
  rw [access, run_bind]
  cases h : f st.mem with
  | none => simp [h]
  | some b => simp [h, @eq_comm _ b]

@[simp] theorem run_update {f : Mem → Option Mem} {u : Unit} :
    update f st = .ok u st' ↔ ∃ m, f st.mem = some m ∧ st' = { st with mem := m } := by
  simp [update]

@[simp] theorem run_allocate {f : Mem → Ptr × Mem} {p : Ptr} :
    allocate f st = .ok p st' ↔ p = (f st.mem).1 ∧ st' = { st with mem := (f st.mem).2 } := by
  simp [allocate, and_comm]

@[simp] theorem run_cursor {p : Ptr} {c : Char} :
    cursor p st = .ok c st' ↔ st.mem.read p = some c ∧ st' = st := run_access

@[simp] theorem run_peek {p : Ptr} {c : Char} :
    peek p st = .ok c st' ↔ st.mem.read (p.add 1) = some c ∧ st' = st := run_access

@[simp] theorem run_cstr {p : Ptr} {s : List Char} :
    cstr p st = .ok s st' ↔ st.mem.cstr p = some s ∧ st' = st := run_access

@[simp] theorem run_skip {p q : Ptr} {n : ℕ} :
    skip p n st = .ok q st' ↔ (∃ c, st.mem.read (p.add n) = some c) ∧ q = p.add n ∧ st' = st := by
  simp only [skip, run_bind, run_cursor, run_pure]
  constructor
  · rintro ⟨c, s, ⟨hc, rfl⟩, rfl, rfl⟩; exact ⟨⟨c, hc⟩, rfl, rfl⟩
  · rintro ⟨⟨c, hc⟩, rfl, rfl⟩; exact ⟨c, _, ⟨hc, rfl⟩, rfl, rfl⟩

@[simp] theorem run_next {p q : Ptr} :
    next p st = .ok q st' ↔ (∃ c, st.mem.read (p.add 1) = some c) ∧ q = p.add 1 ∧ st' = st := run_skip

@[simp] theorem run_scan {f : List Char → Except String ℕ} {p : Ptr} {n : ℕ} :
    scan f p st = .ok n st' ↔ ∃ s, st.mem.cstr p = some s ∧ f s = .ok n ∧ st' = st := by
  rw [scan, run_bind]
  constructor
  · rintro ⟨s, s₁, hs, h⟩
    obtain ⟨hs, rfl⟩ := run_cstr.mp hs
    cases hf : f s with
    | error e => rw [hf] at h; exact absurd h run_panic
    | ok m =>
      rw [hf] at h
      obtain ⟨rfl, rfl⟩ := run_pure.mp h
      exact ⟨s, hs, hf, rfl⟩
  · rintro ⟨s, hs, hf, rfl⟩
    exact ⟨s, st', run_cstr.mpr ⟨hs, rfl⟩, by rw [hf]; exact run_pure.mpr ⟨rfl, rfl⟩⟩

/-! ### sd-bus -/

@[simp] theorem run_call {c : Call} {u : Unit} : callSdBusFunc rt sd c st = .ok u st' ↔
    ¬ sd st.calls c < 0 ∧ st' = { st with calls := st.calls ++ [c] } := by
  simp [callSdBusFunc]

/-! ### Conversions -/

/-- A type error never returns. -/
@[simp] theorem run_typeError {ty : String} {x : Janet} {a : α} :
    ¬ (dbusTypeError rt ty x : Append α) st = .ok a st' := by
  intro h
  rw [dbusTypeError, run_bind] at h
  obtain ⟨e, _, _, h⟩ := h
  obtain ⟨sigbuf, _, _, h⟩ := run_bind.mp h
  cases sigbuf with
  | none => exact absurd h run_panic
  | some sigbuf =>
    obtain ⟨childbuf, _, _, h⟩ := run_bind.mp h
    cases childbuf with
    | none => exact absurd h run_panic
    | some childbuf => exact absurd h run_panic

@[simp] theorem run_getter {check : Janet → Option α} {ty : String} {x : Janet} {a : α} :
    getter rt check ty x st = .ok a st' ↔ check x = some a ∧ st' = st := by
  rw [getter]
  cases h : check x with
  | none => simp
  | some b => simp [@eq_comm _ b]

theorem run_getinteger64 {x : Janet} {a : BitVec 64} :
    getinteger64 rt x st = .ok a st' ↔ janetUnwrapS64 rt x = some a ∧ st' = st := by
  rw [getinteger64]
  cases h : janetUnwrapS64 rt x with
  | none => simp
  | some b => simp [@eq_comm _ b]

theorem run_getuinteger64 {x : Janet} {a : BitVec 64} :
    getuinteger64 rt x st = .ok a st' ↔ janetUnwrapU64 rt x = some a ∧ st' = st := by
  rw [getuinteger64]
  cases h : janetUnwrapU64 rt x with
  | none => simp
  | some b => simp [@eq_comm _ b]

theorem run_getcstring {x : Janet} {a : CString} :
    getcstring rt x st = .ok a st' ↔ x.cstring = some a ∧ st' = st := by
  rw [getcstring, run_bind]
  cases x with
  | string bs =>
    cases h : janetGetcbytes bs with
    | none => simp [Janet.cstring, h]
    | some b => simp [Janet.cstring, h, @eq_comm _ b]
  | _ => simp [Janet.cstring]

theorem run_getfd {x : Janet} {a : ℤ} :
    getfd rt x st = .ok a st' ↔ x.descriptor = some a ∧ st' = st := by
  cases x with
  | file closed fd => cases closed <;> simp [getfd, Janet.descriptor, @eq_comm _ a]
  | stream closed fd => cases closed <;> simp [getfd, Janet.descriptor, @eq_comm _ a]
  | _ => simp [getfd, Janet.descriptor]

/-- Converting and appending, whatever the conversion is. -/
theorem run_convert {get : Append α} {conv : Option α} {u : Unit} (mk : α → Basic)
    (hget : ∀ a s, get st = .ok a s ↔ conv = some a ∧ s = st) :
    (get >>= fun a => callSdBusFunc rt sd (basicCall (mk a))) st = .ok u st' ↔
      ∃ x, conv.map mk = some x ∧ ¬ sd st.calls (basicCall x) < 0 ∧
        st' = { st with calls := st.calls ++ [basicCall x] } := by
  rw [run_bind]
  constructor
  · rintro ⟨a, s, ha, h⟩
    obtain ⟨hconv, rfl⟩ := (hget a s).mp ha
    exact ⟨mk a, by rw [hconv, Option.map_some], run_call.mp h⟩
  · rintro ⟨x, hx, h⟩
    obtain ⟨a, ha, rfl⟩ := Option.map_eq_some_iff.mp hx
    exact ⟨a, st, (hget a st).mpr ⟨ha, rfl⟩, run_call.mpr h⟩

/-- At the code of a basic type: one conversion and one call. -/
theorem run_appendBasicType {c : Code} {p : Ptr} {arg : Janet} {u : Unit}
    (hc : st.mem.read p = some c.char) : appendBasicType rt sd p arg st = .ok u st' ↔
      ∃ x, convert rt c arg = some x ∧ ¬ sd st.calls (basicCall x) < 0 ∧
        st' = { st with calls := st.calls ++ [basicCall x] } := by
  have hread : ∀ k : Char → Append Unit,
      (cursor p >>= k) st = .ok u st' ↔ k c.char st = .ok u st' := by
    intro k
    rw [run_bind]
    constructor
    · rintro ⟨ch, s, hch, h⟩
      obtain ⟨hread, rfl⟩ := run_cursor.mp hch
      obtain rfl := Option.some.inj (hc.symm.trans hread)
      exact h
    · intro h; exact ⟨_, st, run_cursor.mpr ⟨hc, rfl⟩, h⟩
  rw [appendBasicType, hread, Code.ofChar_char]
  cases c with
  | byte => exact run_convert .byte fun a s => run_getter
  | boolean =>
    obtain ⟨get, hget, hconv⟩ : ∃ get : Janet → Option Bool, getboolean rt = getter rt get "boolean" ∧
        convert rt .boolean arg = (get arg).map .boolean := ⟨_, rfl, by cases arg <;> rfl⟩
    have hgetter : ∀ a s, getboolean rt arg st = .ok a s ↔ get arg = some a ∧ s = st := by
      intro a s
      rw [hget]
      exact run_getter
    rw [hconv]
    exact run_convert .boolean hgetter
  | int16 => exact run_convert .int16 fun a s => run_getter
  | uint16 => exact run_convert .uint16 fun a s => run_getter
  | int32 => exact run_convert .int32 fun a s => run_getter
  | uint32 => exact run_convert .uint32 fun a s => run_getter
  | int64 => exact run_convert .int64 fun a s => run_getinteger64
  | uint64 => exact run_convert .uint64 fun a s => run_getuinteger64
  | double =>
    obtain ⟨get, hget, hconv⟩ : ∃ get : Janet → Option Double, getnumber rt = getter rt get "number" ∧
        convert rt .double arg = (get arg).map .double := ⟨_, rfl, by cases arg <;> rfl⟩
    have hgetter : ∀ a s, getnumber rt arg st = .ok a s ↔ get arg = some a ∧ s = st := by
      intro a s
      rw [hget]
      exact run_getter
    rw [hconv]
    exact run_convert .double hgetter
  | string => exact run_convert .string fun a s => run_getcstring
  | objectPath => exact run_convert .objectPath fun a s => run_getcstring
  | signature => exact run_convert .signature fun a s => run_getcstring
  | fd => exact run_convert .fd fun a s => run_getfd

end JanetSdbus.Message
