import JanetSdbus.Message.Span
import JanetSdbus.Message.Refusals

/-! The encoder under guard.

    `guarded` stops at a fault when `append_complete_type` is entered at the end of a string, when it
    leaves the cursor outside its own string, and when it returns without having made a call. The
    walker with a guard on every activation runs like the walker itself up to such a fault
    (`Follows`), and what it does under one sd-bus it also does under an sd-bus that accepts
    everything, unless sd-bus refuses a call. -/

namespace JanetSdbus.Message
open DBus Schemes.CMemory

variable {α β : Type} (rt : Runtime) (sd : SdBus)

/-- Faults unless `c` holds. -/
def require (c : Prop) [Decidable c] : Append Unit := if c then pure () else throw .fault

def guarded (rec : Ptr → Janet → Append Ptr) (p : Ptr) (x : Janet) : Append Ptr := do
  let s ← cstr p
  require (s ≠ [])
  let before ← get
  let q ← rec p x
  let after ← get
  require (q.blk = p.blk ∧ p.off ≤ q.off ∧ q.off < p.off + s.length)
  require (before.calls.length < after.calls.length)
  pure q

def guardedCompleteType : ℕ → Ptr → Janet → Append Ptr
  | 0 => fun _ _ => throw .deep
  | n + 1 => guarded (appendCompleteBody rt sd (guardedCompleteType n))

/-- `append_data` with the guarded walker. -/
def guardedData (signature : Ptr) (args : List Janet) : Append Ptr := do
  dbusErrctxReset
  let p ← appendArgs (guardedCompleteType rt sd (depthAll args + 1)) signature signature args
  let ch ← cursor p
  panicIf (ch ≠ '\x00') (withStr "Arguments missing for signature: " signature)
  pure p

/-- Behind the opening of every dictionary entry comes its key. -/
def Keyed : List Call → Prop
  | [] => True
  | c :: cs => (∀ s, c = .openContainer .dictEntry s → ∃ x, cs.head? = some (basicCall x)) ∧ Keyed cs

/-- The encoder returns or raises. On the way every cursor stands inside its string or at its end,
    no activation of `append_complete_type` starts at the end or returns without a call, and no key
    is skipped. -/
def Total (signature : Ptr) (args : List Janet) (st : AppendState) : Prop :=
  (∃ q st' cs, guardedData rt sd signature args st = .ok q st' ∧
    appendData rt sd signature args st = .ok q st' ∧ st'.calls = st.calls ++ cs ∧ Keyed cs) ∨
  ∃ msg st', guardedData rt sd signature args st = .error (.panic msg) st' ∧
    appendData rt sd signature args st = .error (.panic msg) st'

variable {rt} {sd}

theorem keyed_append : ∀ {cs ds : List Call}, Keyed cs → Keyed ds → Keyed (cs ++ ds)
  | [], _, _, h => h
  | c :: cs, ds, ⟨hc, hcs⟩, h => by
    refine ⟨fun s hs => ?_, keyed_append hcs h⟩
    obtain ⟨x, hx⟩ := hc s hs
    exact ⟨x, by rw [List.append_eq, List.head?_append, hx, Option.some_or]⟩

theorem keyed_single {c : Call} (h : ∀ s, c ≠ .openContainer .dictEntry s) : Keyed [c] :=
  ⟨fun s hs => absurd hs (h s), trivial⟩

/-! ### Errors -/

variable {st st' : AppendState} {e : Stop}

theorem error_bind {x : Append α} {f : α → Append β} : (x >>= f) st = .error e st' ↔
    x st = .error e st' ∨ ∃ a s, x st = .ok a s ∧ f a s = .error e st' := by
  cases hx : x st with
  | ok a s => simp [bind, EStateM.bind, hx]
  | error e s => simp [bind, EStateM.bind, hx]

theorem error_pure {a : α} : ¬ (pure a : Append α) st = .error e st' := by
  intro h
  have heq : (pure a : Append α) st = .ok a st := rfl
  rw [heq] at h
  exact absurd h (by simp)

theorem error_get : ¬ (get : Append AppendState) st = .error e st' := by
  intro h
  have heq : (get : Append AppendState) st = .ok st st := rfl
  rw [heq] at h
  exact absurd h (by simp)

theorem error_throw {e' : Stop} : (throw e' : Append α) st = .error e st' ↔ e = e' ∧ st' = st := by
  have heq : (throw e' : Append α) st = .error e' st := rfl
  rw [heq, EStateM.Result.error.injEq, eq_comm, @eq_comm _ st]

theorem error_access {f : Mem → Option α} (h : access f st = .error e st') : e = .fault := by
  rw [access, error_bind] at h
  rcases h with h | ⟨s, _, _, h⟩
  · exact absurd h error_get
  · cases hf : f s.mem with
    | some a => rw [hf] at h; exact absurd h error_pure
    | none => rw [hf] at h; exact (error_throw.mp h).1

theorem error_require {c : Prop} [Decidable c] :
    require c st = .error e st' ↔ ¬ c ∧ e = .fault ∧ st' = st := by
  rw [require]
  by_cases h : c
  · simp [h, error_pure]
  · simp [h, error_throw]

theorem run_require {c : Prop} [Decidable c] {u : Unit} :
    require c st = .ok u st' ↔ c ∧ st' = st := by
  rw [require]
  by_cases h : c
  · simp [h]
  · simp [h]

/-! ### One run tracks another -/

/-- Where `m` returns, `m'` does the same, and where `m` stops for a reason in `D`, `m'` stops in the
    same state for a reason that is related. -/
def Tracks (D : Stop → Prop) (R : Stop → Stop → Prop) (m m' : Append α) : Prop := ∀ st,
  (∀ a st', m st = .ok a st' → m' st = .ok a st') ∧
  ∀ e st', D e → m st = .error e st' → ∃ e', R e e' ∧ m' st = .error e' st'

/-- Where `m` returns, `m'` does the same, and where `m` stops for a reason in `E` too. -/
def Follows (E : Stop → Prop) (m m' : Append α) : Prop := ∀ st,
  (∀ a st', m st = .ok a st' → m' st = .ok a st') ∧
  ∀ e st', E e → m st = .error e st' → m' st = .error e st'

theorem follows_iff_tracks {E : Stop → Prop} {m m' : Append α} :
    Follows E m m' ↔ Tracks E Eq m m' := by
  constructor
  · exact fun h st => ⟨(h st).1, fun e st' he hrun => ⟨e, rfl, (h st).2 e st' he hrun⟩⟩
  · refine fun h st => ⟨(h st).1, fun e st' he hrun => ?_⟩
    obtain ⟨_, rfl, hrun'⟩ := (h st).2 e st' he hrun
    exact hrun'

section tracks
variable {D : Stop → Prop} {R : Stop → Stop → Prop}

theorem Tracks.refl (hR : ∀ e, R e e) (m : Append α) : Tracks D R m m :=
  fun _ => ⟨fun _ _ h => h, fun e _ _ h => ⟨e, hR e, h⟩⟩

theorem Tracks.bind {x x' : Append α} {f f' : α → Append β} (hx : Tracks D R x x')
    (hf : ∀ a, Tracks D R (f a) (f' a)) : Tracks D R (x >>= f) (x' >>= f') := by
  intro st
  constructor
  · intro b st' h
    obtain ⟨a, s, ha, hb⟩ := run_bind.mp h
    exact run_bind.mpr ⟨a, s, (hx st).1 a s ha, (hf a s).1 b st' hb⟩
  · intro e st' he h
    rcases error_bind.mp h with h | ⟨a, s, ha, hb⟩
    · obtain ⟨e', hR, h'⟩ := (hx st).2 e st' he h
      exact ⟨e', hR, error_bind.mpr (.inl h')⟩
    · obtain ⟨e', hR, h'⟩ := (hf a s).2 e st' he hb
      exact ⟨e', hR, error_bind.mpr (.inr ⟨a, s, (hx st).1 a s ha, h'⟩)⟩

section walker
variable (hR : ∀ e, R e e)
include hR

/-- A common first step. -/
theorem Tracks.after {x : Append α} {f f' : α → Append β} (hf : ∀ a, Tracks D R (f a) (f' a)) :
    Tracks D R (x >>= f) (x >>= f') := (Tracks.refl hR x).bind hf

variable {rec rec' : Ptr → Janet → Append Ptr} {sd' : SdBus}
  (hcall : ∀ c, Tracks D R (callSdBusFunc rt sd c) (callSdBusFunc rt sd' c))
  (hrec : ∀ p v, Tracks D R (rec p v) (rec' p v))

include hcall in
theorem tracks_basic (p : Ptr) (arg : Janet) :
    Tracks D R (appendBasicType rt sd p arg) (appendBasicType rt sd' p arg) := by
  refine .after hR fun ch => ?_
  cases Code.ofChar ch with
  | none => exact .refl hR _
  | some c => cases c <;> exact .after hR fun _ => hcall _

include hcall hrec in
theorem tracks_variant (p : Ptr) (arg : Janet) :
    Tracks D R (appendVariantType rt sd rec p arg) (appendVariantType rt sd' rec' p arg) := by
  refine .after hR fun xs => ?_
  match xs with
  | [] | [_] | _ :: _ :: _ :: _ => exact .refl hR _
  | [sig, x] =>
    cases sig with
    | string bs =>
      cases hbs : janetGetcbytes bs with
      | none =>
        simp only [hbs]
        exact .refl hR _
      | some s =>
        simp only [hbs]
        refine .after hR fun q => .after hR fun contents => ?_
        refine (hcall _).bind fun _ => (hrec q x).bind fun _ => ?_
        exact (hcall _).bind fun _ => .refl hR _
    | _ => exact .refl hR _

include hrec in
theorem tracks_loop (excessive : String) (enter : Append Unit) (signature : Ptr) :
    ∀ (p : Ptr) (xs : List Janet), Tracks D R (appendLoop rec excessive enter signature p xs)
      (appendLoop rec' excessive enter signature p xs)
  | _, [] => .refl hR _
  | p, x :: xs => by
    simp only [appendLoop]
    refine .after hR fun ch => .after hR fun _ => .after hR fun _ => ?_
    refine (hrec p x).bind fun q => .after hR fun q => ?_
    exact tracks_loop excessive enter signature q xs

include hcall hrec in
theorem tracks_struct (p : Ptr) (arg : Janet) :
    Tracks D R (appendStructType rt sd rec p arg) (appendStructType rt sd' rec' p arg) := by
  refine .after hR fun end_ => .after hR fun _ => .after hR fun struct_sig => .after hR fun _ => ?_
  refine .after hR fun p => .after hR fun contents => (hcall _).bind fun _ => ?_
  refine .after hR fun array => .after hR fun _ => ?_
  refine (tracks_loop hR hrec _ _ _ _ _).bind fun q => ?_
  refine .after hR fun ch => .after hR fun _ => (hcall _).bind fun _ => ?_
  exact .refl hR _

include hcall hrec in
theorem tracks_entries (dict_sig : Ptr) : ∀ kvs : List (Janet × Janet),
    Tracks D R (appendEntries rt sd rec dict_sig kvs) (appendEntries rt sd' rec' dict_sig kvs)
  | [] => .refl hR _
  | (key, value) :: kvs => by
    simp only [appendEntries]
    refine .after hR fun contents => (hcall _).bind fun _ => ?_
    refine (tracks_basic hR hcall dict_sig key).bind fun _ => .after hR fun q => ?_
    refine (hrec q value).bind fun _ => (hcall _).bind fun _ => ?_
    exact tracks_entries dict_sig kvs

include hcall hrec in
theorem tracks_dict (p : Ptr) (arg : Janet) :
    Tracks D R (appendDictType rt sd rec p arg) (appendDictType rt sd' rec' p arg) := by
  refine .after hR fun end_ => .after hR fun _ => .after hR fun dict_sig => .after hR fun _ => ?_
  refine .after hR fun p => .after hR fun key => .after hR fun _ => .after hR fun contents => ?_
  refine (hcall _).bind fun _ => .after hR fun _ => .after hR fun _ => .after hR fun dict => ?_
  refine (tracks_entries hR hcall hrec dict_sig dict).bind fun _ => (hcall _).bind fun _ => ?_
  exact .refl hR _

include hrec in
theorem tracks_elements (array_sig : Ptr) : ∀ xs : List Janet,
    Tracks D R (appendElements rec array_sig xs) (appendElements rec' array_sig xs)
  | [] => .refl hR _
  | x :: xs => by
    simp only [appendElements]
    exact (hrec array_sig x).bind fun _ => tracks_elements array_sig xs

include hcall hrec in
theorem tracks_array (p : Ptr) (arg : Janet) :
    Tracks D R (appendArrayType rt sd rec p arg) (appendArrayType rt sd' rec' p arg) := by
  refine .after hR fun ch => ?_
  split
  · exact .after hR fun q => tracks_dict hR hcall hrec q arg
  · split
    · refine .after hR fun q => .after hR fun view => ?_
      exact (hcall _).bind fun _ => .refl hR _
    · refine .after hR fun end_ => .after hR fun array_sig => .after hR fun _ => .after hR fun p => ?_
      refine .after hR fun contents => (hcall _).bind fun _ => .after hR fun array => ?_
      refine (tracks_elements hR hrec array_sig array).bind fun _ => (hcall _).bind fun _ => ?_
      exact .refl hR _

include hcall hrec in
theorem tracks_branch (ch : Char) (p : Ptr) (arg : Janet) :
    Tracks D R (appendBranch rt sd rec ch p arg) (appendBranch rt sd' rec' ch p arg) := by
  simp only [appendBranch]
  split
  · exact (tracks_basic hR hcall p arg).bind fun _ => .refl hR _
  · split
    · exact tracks_variant hR hcall hrec p arg
    · split
      · exact tracks_struct hR hcall hrec p arg
      · split
        · exact tracks_array hR hcall hrec p arg
        · exact .refl hR _

include hcall hrec in
theorem tracks_body (p : Ptr) (arg : Janet) :
    Tracks D R (appendCompleteBody rt sd rec p arg) (appendCompleteBody rt sd' rec' p arg) := by
  refine .after hR fun len => .after hR fun _ => .after hR fun ch => ?_
  exact (tracks_branch hR hcall hrec ch p arg).bind fun q => .refl hR _

include hrec in
theorem tracks_guarded (p : Ptr) (arg : Janet) : Tracks D R (guarded rec p arg) (guarded rec' p arg) := by
  refine .after hR fun s => .after hR fun _ => .after hR fun before => ?_
  exact (hrec p arg).bind fun q => .refl hR _

end walker

end tracks

section follows
variable {E : Stop → Prop}

theorem Follows.refl (m : Append α) : Follows E m m := fun _ => ⟨fun _ _ h => h, fun _ _ _ h => h⟩

/-- The two encoders, if their walkers do. -/
theorem follows_encoder {rec rec' : Ptr → Janet → Append Ptr} (hrec : ∀ p v, Follows E (rec p v) (rec' p v))
    (signature : Ptr) (args : List Janet) : Follows E
      (do dbusErrctxReset
          let p ← appendArgs rec signature signature args
          let ch ← cursor p
          panicIf (ch ≠ '\x00') (withStr "Arguments missing for signature: " signature)
          pure p)
      (do dbusErrctxReset
          let p ← appendArgs rec' signature signature args
          let ch ← cursor p
          panicIf (ch ≠ '\x00') (withStr "Arguments missing for signature: " signature)
          pure p) := by
  refine follows_iff_tracks.mpr (.after (fun _ => rfl) fun _ => ?_)
  refine (tracks_loop (fun _ => rfl) (fun p v => follows_iff_tracks.mp (hrec p v)) _ _ _ _ _).bind fun _ => ?_
  exact .refl (fun _ => rfl) _

/-- Up to a fault the guard does nothing. -/
theorem follows_unguarded {rec rec' : Ptr → Janet → Append Ptr} (hE : ¬ E .fault)
    (hrec : ∀ p v, Follows E (rec p v) (rec' p v)) (p : Ptr) (arg : Janet) :
    Follows E (guarded rec p arg) (rec' p arg) := by
  intro st
  constructor
  · intro q st' h
    simp only [guarded, run_bind, run_cstr, run_require, run_get, run_pure] at h
    obtain ⟨s, _, ⟨_, rfl⟩, _, _, ⟨_, rfl⟩, _, _, ⟨_, rfl⟩, q, s₁, hq, _, _, ⟨_, rfl⟩, _, _, ⟨_, rfl⟩,
      _, _, ⟨_, rfl⟩, rfl, rfl⟩ := h
    exact (hrec p arg _).1 _ _ hq
  · intro e st' he h
    have hne : e ≠ .fault := fun heq => hE (heq ▸ he)
    rw [guarded, error_bind] at h
    rcases h with h | ⟨s, _, hs, h⟩
    · exact absurd (error_access h) hne
    obtain ⟨_, rfl⟩ := run_cstr.mp hs
    rw [error_bind] at h
    rcases h with h | ⟨_, _, hs, h⟩
    · exact absurd (error_require.mp h).2.1 hne
    obtain ⟨_, rfl⟩ := run_require.mp hs
    rw [error_bind] at h
    rcases h with h | ⟨_, _, hs, h⟩
    · exact absurd h error_get
    obtain ⟨_, rfl⟩ := run_get.mp hs
    rw [error_bind] at h
    rcases h with h | ⟨q, s₁, _, h⟩
    · exact (hrec p arg _).2 _ _ he h
    -- behind the call-back only the guard itself stops
    simp only [error_bind, error_require, run_require, run_get] at h
    rcases h with h | ⟨_, _, ⟨_, rfl⟩, ⟨_, rfl, _⟩ | ⟨_, _, ⟨_, rfl⟩, ⟨_, rfl, _⟩ | ⟨_, _, _, h⟩⟩⟩
    · exact absurd h error_get
    · exact absurd rfl hne
    · exact absurd rfl hne
    · exact absurd h error_pure

theorem follows_guardedComplete {sd' : SdBus}
    (hcall : ∀ c, Follows E (callSdBusFunc rt sd c) (callSdBusFunc rt sd' c)) : ∀ (n : ℕ) (p : Ptr) (arg : Janet),
    Follows E (guardedCompleteType rt sd n p arg) (guardedCompleteType rt sd' n p arg)
  | 0, _, _ => .refl _
  | n + 1, p, arg => by
    refine follows_iff_tracks.mpr (tracks_guarded (fun _ => rfl) (fun q x => ?_) p arg)
    refine tracks_body (fun _ => rfl) (fun c => follows_iff_tracks.mp (hcall c)) (fun r y => ?_) q x
    exact follows_iff_tracks.mp (follows_guardedComplete hcall n r y)

theorem follows_complete (hE : ¬ E .fault) : ∀ (n : ℕ) (p : Ptr) (arg : Janet),
    Follows E (guardedCompleteType rt sd n p arg) (appendCompleteType rt sd n p arg)
  | 0, _, _ => .refl _
  | n + 1, p, arg => by
    refine follows_unguarded hE (fun q x => follows_iff_tracks.mpr ?_) p arg
    refine tracks_body (fun _ => rfl) (fun _ => .refl (fun _ => rfl) _) (fun r y => ?_) q x
    exact follows_iff_tracks.mp (follows_complete hE n r y)

variable (signature : Ptr) (args : List Janet)

theorem follows_guardedData {sd' : SdBus}
    (hcall : ∀ c, Follows E (callSdBusFunc rt sd c) (callSdBusFunc rt sd' c)) :
    Follows E (guardedData rt sd signature args) (guardedData rt sd' signature args) :=
  follows_encoder (follows_guardedComplete hcall _) signature args

theorem follows_data (hE : ¬ E .fault) :
    Follows E (guardedData rt sd signature args) (appendData rt sd signature args) :=
  follows_encoder (follows_complete hE _) signature args

end follows

end JanetSdbus.Message
