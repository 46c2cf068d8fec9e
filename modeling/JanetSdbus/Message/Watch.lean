import Mathlib.Data.List.Induction
import JanetSdbus.Message.Cut

/-! Where type errors point.

    `watch` judges a type error where it is raised: it is well placed if the error context names the
    argument, its type in the signature and, further in, a type whose conversion is still in progress.
    The walker with a watch on every activation runs like the walker itself (`tracks_data`), so it
    tells about every type error that `append_data` raises. `blame` is the same walk on the signature
    and the values alone. -/

namespace JanetSdbus.Message
open DBus Schemes.CMemory

/-- The argument that is being converted, and where its type starts. -/
structure Progress where
  argc : ℕ
  start : Ptr

/-- The error context points at the right place; `active` are the starts of the types whose conversion
    is in progress. -/
def WellPlaced (pr : Progress) (active : List Ptr) (st : AppendState) : Prop :=
  st.errctx.argc = pr.argc ∧ st.errctx.sig₀ = some pr.start ∧
    (1 < st.errctx.depth →
      ∃ q ∈ active, st.errctx.sig₁ = some q ∧ (st.mem.blocks q.blk).isSome = true)

instance (pr : Progress) (active : List Ptr) (st : AppendState) : Decidable (WellPlaced pr active st) :=
  inferInstanceAs (Decidable (_ ∧ _ ∧ _))

/-- No other text of the encoder begins like this. -/
def isTypeError (msg : String) : Bool := "bad argument #".toList.isPrefixOf msg.toList

/-- A type error that is not well placed becomes a fault. The text of one that is tells no longer that
    it is a type error: the activations around have other types in progress. -/
def judgement (pr : Progress) (active : List Ptr) (st : AppendState) : Stop → Stop
  | .panic msg =>
    if isTypeError msg then if WellPlaced pr active st then .panic "well placed" else .fault
    else .panic msg
  | e => e

def watch {α : Type} (pr : Progress) (active : List Ptr) (m : Append α) : Append α := fun st =>
  match m st with
  | .ok a s => .ok a s
  | .error e s => .error (judgement pr active s e) s

variable (rt : Runtime) (sd : SdBus)

/-- `append_complete_type` inside the activations on `active`. -/
def watchedCompleteType (pr : Progress) : ℕ → List Ptr → Ptr → Janet → Append Ptr
  | 0, _, _, _ => throw .deep
  | n + 1, active, p, arg =>
    watch pr (p :: active) (appendCompleteBody rt sd (watchedCompleteType pr n (p :: active)) p arg)

/-- Where in a signature the type of an argument starts. -/
def startOf (s : List Char) : ℕ → ℕ
  | 0 => 0
  | i + 1 =>
    match stride (s.drop (startOf s i)) with
    | .ok k => startOf s i + (k + 1)
    | .error _ => startOf s i

/-- The loop of `append_data`, from the argument with index `i` on. -/
def watchedArgs (n : ℕ) (s : List Char) (signature : Ptr) : ℕ → Ptr → List Janet → Append Ptr
  | _, p, [] => pure p
  | i, p, x :: xs => do
    let ch ← cursor p
    panicIf (ch = '\x00') (withStr "Excessive arguments for signature: " signature)
    dbusErrctxInc
    let p ← watchedCompleteType rt sd ⟨i + 1, signature.add (startOf s i)⟩ n [] p x
    let p ← next p
    watchedArgs n s signature (i + 1) p xs

/-- `append_data` with the watched walker, for the signature `s`. -/
def watchedData (s : List Char) (signature : Ptr) (args : List Janet) : Append Ptr := do
  dbusErrctxReset
  let p ← watchedArgs rt sd (depthAll args + 1) s signature 0 signature args
  let ch ← cursor p
  panicIf (ch ≠ '\x00') (withStr "Arguments missing for signature: " signature)
  pure p

/-- Every type error that `append_data` raises is well placed. The encoder does not stop at a fault,
    as it would where the text of a type error is read from released memory. -/
def PointsRight (s : List Char) (signature : Ptr) (args : List Janet) (st : AppendState) : Prop :=
  (∀ st', appendData rt sd signature args st ≠ .error .fault st') ∧
  ∀ msg st', appendData rt sd signature args st = .error (.panic msg) st' → isTypeError msg = true →
    watchedData rt sd s signature args st = .error (.panic "well placed") st'

/-! ### Blame -/

/-- What becomes of a value, as far as type errors are concerned: a value that is over has left the
    error context with a span that is not in progress any more, and that goes `wrong` at the next key
    that is mistyped. An empty string, in a variant, is walked over. -/
def blame : ℕ → Bool → List Char → Janet → Verdict
  | 0, _, _, _ => .wrong
  | n + 1, inner, s, v =>
    if s = [] then .done .released
    else (judgeBody rt (blame n true) inner s v).map fun _ => .released

/-- A key of a dictionary inside another container, behind the first entry, fails its type check, and
    nothing is raised before. -/
def Misplaced (s : List Char) (args : List Janet) : Prop :=
  judgeFields (blame rt (depthAll args + 1) false) s args = .wrong

/-! ### The watched walker and the walker -/

variable {rt sd} {α β : Type} {st st' : AppendState} {pr : Progress} {active : List Ptr} {m m' : Append α}
  {e : Stop}

/-- A text that begins with another letter. -/
theorem isTypeError_append {text : String} {c : Char} (h : text.toList.head? = some c) (hc : c ≠ 'b')
    (x : String) : isTypeError (text ++ x) = false := by
  obtain ⟨w, hw⟩ := List.head?_eq_some_iff.mp h
  have hb : ('b' == c) = false := beq_eq_false_iff_ne.mpr hc.symm
  rw [isTypeError, String.toList_append, hw]
  exact Bool.and_eq_false_iff.mpr (.inl hb)

/-! ### Runs that raise no type error -/

def Silenced (m : Append α) : Prop :=
  ∀ st msg st', m st = .error (.panic msg) st' → isTypeError msg = false

theorem Silenced.bind {x : Append α} {f : α → Append β} (hx : Silenced x) (hf : ∀ a, Silenced (f a)) :
    Silenced (x >>= f) := by
  intro st msg st' h
  rcases error_bind.mp h with h | ⟨a, s, _, h⟩
  · exact hx st msg st' h
  · exact hf a s msg st' h

theorem silenced_pure (a : α) : Silenced (pure a : Append α) := fun _ _ _ h => absurd h error_pure

theorem silenced_access (f : Mem → Option α) : Silenced (access f) := fun _ _ _ h =>
  absurd (error_access h) (by simp)

theorem silenced_next (p : Ptr) : Silenced (next p) :=
  (silenced_access _).bind fun _ => silenced_pure _

/-- A text that names a signature. -/
theorem silenced_panicIf (d : Prop) [Decidable d] {text : String} {c : Char} (h : text.toList.head? = some c)
    (hc : c ≠ 'b') (p : Ptr) : Silenced (panicIf d (withStr text p)) := by
  rw [panicIf]
  split
  · intro st msg st' hrun
    rcases error_bind.mp hrun with hrun | ⟨a, s, ha, hrun⟩
    · exact ((silenced_access _).bind fun _ => silenced_pure _) st msg st' hrun
    · obtain ⟨w, _, _, ha⟩ := run_bind.mp ha
      obtain ⟨rfl, _⟩ := run_pure.mp ha
      rw [← Stop.panic.inj (EStateM.Result.error.inj hrun).1]
      exact isTypeError_append h hc _
  · exact silenced_pure ()

/-! ### The watch -/

theorem watch_ok {a : α} : watch pr active m st = .ok a st' ↔ m st = .ok a st' := by
  rw [watch]
  cases m st <;> simp

variable (pr active) in
theorem watch_error (h : m st = .error e st') :
    watch pr active m st = .error (judgement pr active st' e) st' := by
  rw [watch, h]

/-- What passes. -/
theorem judgement_other (he : ∀ msg, e = .panic msg → isTypeError msg = false) :
    judgement pr active st e = e := by
  cases e with
  | panic msg => exact if_neg (by rw [he msg rfl]; decide)
  | _ => rfl

theorem judgement_typeError {msg : String} (h : isTypeError msg = true) :
    judgement pr active st (.panic msg) =
      if WellPlaced pr active st then .panic "well placed" else .fault := if_pos h

/-- No type error passes. -/
theorem isTypeError_judgement {msg : String} (h : judgement pr active st e = .panic msg) :
    isTypeError msg = false := by
  by_cases he : ∃ text, e = .panic text ∧ isTypeError text = true
  · obtain ⟨text, rfl, htext⟩ := he
    rw [judgement_typeError htext] at h
    split at h
    · rw [← Stop.panic.inj h]
      decide
    · exact absurd h (by simp)
  · have hpass : ∀ text, e = .panic text → isTypeError text = false := fun text heq =>
      Bool.eq_false_iff.mpr fun htext => he ⟨text, heq, htext⟩
    rw [judgement_other hpass] at h
    exact hpass msg h

theorem silenced_watch : Silenced (watch pr active m) := by
  intro st msg st' h
  cases hrun : m st with
  | ok q s => exact absurd ((watch_ok.mpr hrun).symm.trans h) (by simp)
  | error e s =>
    exact isTypeError_judgement (EStateM.Result.error.inj ((watch_error pr active hrun).symm.trans h)).1

theorem silenced_complete (pr : Progress) (n : ℕ) (active : List Ptr) (p : Ptr) (arg : Janet) :
    Silenced (watchedCompleteType rt sd pr n active p arg) := by
  cases n with
  | zero => exact fun st msg st' h => absurd (error_throw.mp h).1 (by simp)
  | succ n => exact silenced_watch

theorem silenced_args (n : ℕ) (s : List Char) (signature : Ptr) : ∀ (i : ℕ) (p : Ptr) (xs : List Janet),
    Silenced (watchedArgs rt sd n s signature i p xs)
  | _, p, [] => silenced_pure p
  | i, p, x :: xs => by
    refine (silenced_access _).bind fun ch => ?_
    refine (silenced_panicIf _ rfl (by decide) signature).bind fun _ => ?_
    have hinc : Silenced dbusErrctxInc := fun st msg st' h => nomatch h
    refine hinc.bind fun _ => (silenced_complete _ n [] p x).bind fun q => ?_
    exact (silenced_next q).bind fun q => silenced_args n s signature (i + 1) q xs

theorem silenced_data (s : List Char) (signature : Ptr) (args : List Janet) :
    Silenced (watchedData rt sd s signature args) := by
  have hreset : Silenced dbusErrctxReset := fun st msg st' h => nomatch h
  refine hreset.bind fun _ => (silenced_args _ s signature 0 signature args).bind fun p => ?_
  refine (silenced_access _).bind fun ch => ?_
  exact (silenced_panicIf _ rfl (by decide) signature).bind fun _ => silenced_pure p

/-! ### The watched run and the run -/

/-- How the watch changes the reason of a stop. -/
def Judged (e e' : Stop) : Prop :=
  e' = e ∨ ∃ msg, e = .panic msg ∧ isTypeError msg = true ∧ (e' = .fault ∨ e' = .panic "well placed")

theorem Judged.refl (e : Stop) : Judged e e := .inl rfl

theorem Judged.judgement {e' : Stop} (h : Judged e e') (pr : Progress) (active : List Ptr) (st : AppendState) :
    Judged e (judgement pr active st e') := by
  rcases h with rfl | ⟨msg, rfl, hmsg, rfl | rfl⟩
  · by_cases he : ∃ msg, e' = .panic msg ∧ isTypeError msg = true
    · obtain ⟨msg, rfl, hmsg⟩ := he
      rw [judgement_typeError hmsg]
      split
      · exact .inr ⟨msg, rfl, hmsg, .inr rfl⟩
      · exact .inr ⟨msg, rfl, hmsg, .inl rfl⟩
    · refine .inl (judgement_other fun msg heq => ?_)
      exact Bool.eq_false_iff.mpr fun hmsg => he ⟨msg, heq, hmsg⟩
  · exact .inr ⟨msg, rfl, hmsg, .inl rfl⟩
  · exact .inr ⟨msg, rfl, hmsg, .inr (judgement_other fun text heq => by rw [← Stop.panic.inj heq]; decide)⟩

theorem tracks_watch (h : Tracks (fun _ => True) Judged m m') :
    Tracks (fun _ => True) Judged m (watch pr active m') := by
  intro st
  refine ⟨fun a st' hrun => watch_ok.mpr ((h st).1 a st' hrun), fun e st' _ hrun => ?_⟩
  obtain ⟨e', hR, hrun'⟩ := (h st).2 e st' trivial hrun
  exact ⟨_, hR.judgement pr active st', watch_error pr active hrun'⟩

theorem tracks_complete (pr : Progress) : ∀ (n : ℕ) (active : List Ptr) (p : Ptr) (arg : Janet),
    Tracks (fun _ => True) Judged (appendCompleteType rt sd n p arg) (watchedCompleteType rt sd pr n active p arg)
  | 0, _, _, _ => .refl Judged.refl _
  | n + 1, active, p, arg => tracks_watch
      (tracks_body Judged.refl (fun _ => .refl Judged.refl _) (tracks_complete pr n (p :: active)) p arg)

theorem tracks_args (n : ℕ) (s : List Char) (signature : Ptr) : ∀ (i : ℕ) (p : Ptr) (xs : List Janet),
    Tracks (fun _ => True) Judged (appendArgs (appendCompleteType rt sd n) signature p xs)
      (watchedArgs rt sd n s signature i p xs)
  | _, _, [] => .refl Judged.refl _
  | i, p, x :: xs => by
    refine .after Judged.refl fun ch => .after Judged.refl fun _ => .after Judged.refl fun _ => ?_
    refine (tracks_complete _ n [] p x).bind fun q => .after Judged.refl fun q => ?_
    exact tracks_args n s signature (i + 1) q xs

variable (rt sd) in
/-- The watched encoder runs like the encoder, and judges its type errors in the state in which they
    are raised. -/
theorem tracks_data (s : List Char) (signature : Ptr) (args : List Janet) :
    Tracks (fun _ => True) Judged (appendData rt sd signature args) (watchedData rt sd s signature args) := by
  refine .after Judged.refl fun _ => (tracks_args _ s signature 0 signature args).bind fun _ => ?_
  exact .refl Judged.refl _

/-- Type errors are well placed where the watched encoder meets no fault. -/
theorem pointsRight_iff {s : List Char} {signature : Ptr} {args : List Janet} :
    PointsRight rt sd s signature args st ↔ ∀ st', watchedData rt sd s signature args st ≠ .error .fault st' := by
  have htracks := tracks_data rt sd s signature args st
  constructor
  · rintro ⟨hfault, hplaced⟩ st' hwatched
    cases hrun : appendData rt sd signature args st with
    | ok q s =>
      exact absurd ((htracks.1 q s hrun).symm.trans hwatched) (by simp)
    | error e s =>
      obtain ⟨e', hR, hrun'⟩ := htracks.2 e s trivial hrun
      obtain ⟨rfl, rfl⟩ := EStateM.Result.error.inj (hrun'.symm.trans hwatched)
      rcases hR with rfl | ⟨msg, rfl, hmsg, _⟩
      · exact hfault _ hrun
      · exact absurd ((hplaced msg _ hrun hmsg).symm.trans hwatched) (by simp)
  · intro h
    refine ⟨fun st' hrun => ?_, fun msg st' hrun hmsg => ?_⟩
    · obtain ⟨e', hR, hrun'⟩ := htracks.2 _ st' trivial hrun
      rcases hR with rfl | ⟨_, heq, _⟩
      · exact h st' hrun'
      · exact absurd heq (by simp)
    · obtain ⟨e', hR, hrun'⟩ := htracks.2 _ st' trivial hrun
      rcases hR with rfl | ⟨_, heq, _, rfl | rfl⟩
      · rw [silenced_data s signature args st msg st' hrun'] at hmsg
        exact absurd hmsg (by decide)
      · exact absurd hrun' (h st')
      · exact hrun'

end JanetSdbus.Message
