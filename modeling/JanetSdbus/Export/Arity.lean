import JanetSdbus.Export.Method

/-! How many arguments go in and how many results come out.

    `message-read` returns nothing, one value or an array of values, and `normalized-read` takes an
    array or a tuple for the list of arguments: a single argument that is one is spread
    (`methodBody_arguments`). On the way out the wrapper gives `message-append` one value, whatever
    the signature asks for, so that signatures of two or more types have no answer
    (`methodBody_answers_iff`). -/

namespace JanetSdbus.Export
open DBus Message Schemes

variable {rt : Runtime} {tb : Tables} {dup : ℤ → Except String ℤ} {sd : SdBus} {st : AppendState}

/-! ### Arguments -/

/-- Types whose values are read as an array or a tuple. -/
def Spreads : Ty → Bool
  | .array _ | .struct _ _ | .variant => true
  | _ => false

variable (tb dup) in
/-- The values of a type that spreads are arrays or tuples. -/
theorem decode_spreads {t : Ty} {i : Item} (hty : Item.HasTy t i) (ht : Spreads t = true) :
    ∃ xs, decode tb dup i = .array xs ∨ decode tb dup i = .tuple xs := by
  cases hty with
  | basic x => simp [Spreads] at ht
  | dict k v es hes => simp [Spreads] at ht
  | variant t j hj => exact ⟨_, .inr (by rw [decode])⟩
  | array t is his => exact ⟨_, .inl (by rw [decode, if_neg (Ty.render_no_entry t)])⟩
  | struct t ts is his => exact ⟨_, .inr (by rw [decode])⟩

/-- Any other value is neither. -/
theorem normalize_decode {t : Ty} {i : Item} (hty : Item.HasTy t i) (ht : Spreads t = false)
    (hread : validItem (readable dup) i = true) : normalize (decode tb dup i) = [decode tb dup i] := by
  cases hty with
  | basic x =>
    rw [validItem] at hread
    rw [decode]
    cases x with
    | fd n =>
      rw [readable] at hread
      rw [basicValue]
      cases hn : dup n with
      | ok copy => rfl
      | error msg => simp [hn, Except.isOk, Except.toBool] at hread
    | _ => rfl
  | dict k v es hes =>
    have hhead : (renderEntry k v).head? = some '{' := rfl
    rw [decode, if_pos hhead]
    rfl
  | variant t j hj => simp [Spreads] at ht
  | array t is his => simp [Spreads] at ht
  | struct t ts is his => simp [Spreads] at ht

variable (rt tb) in
/-- The arguments, from the items of a message that can be read. -/
theorem normalizedRead_all {ts : List Ty} {is : List Item} (hty : Item.HaveTys ts is)
    (hread : validItems (readable dup) is = true) (ahead : List (List Item)) :
    normalizedRead rt tb dup (cursorAt is ahead) = .ret (normalize (collapse (decodeAll tb dup is))) := by
  obtain ⟨r, hr⟩ := messageRead_all rt tb hty hread ahead
  rw [normalizedRead, hr]

/-- One argument for each type, unless there is one type only. -/
theorem normalize_collapse {xs : List Janet} (h : xs.length ≠ 1) : normalize (collapse xs) = xs := by
  match xs with
  | [] => rfl
  | [x] => exact absurd rfl h
  | x :: y :: zs => rfl

theorem haveTys_length : ∀ {ts : List Ty} {is : List Item}, Item.HaveTys ts is → ts.length = is.length
  | _, _, .nil => rfl
  | _, _, .cons _ _ _ _ _ his => by rw [List.length_cons, List.length_cons, haveTys_length his]

variable (rt sd st) in
/-- The wrapper with its function called with `args`. -/
def calledWith (fn : Function) (outSignature : List UInt8) (bus : Janet) (path interface : CString)
    (args : List Janet) : JanetFiber Unit :=
  (((fn ⟨bus, .string path.bytes, .string interface.bytes⟩ args).mapOut .other).bind
    (answer rt sd st outSignature)).tryCatch fun err => (sendError rt err).bind fun _ => .raise err

theorem methodWrapper_of_read {fn : Function} {outSignature : List UInt8} {bus : Janet}
    {msg : MethodCall} {args : List Janet} (h : normalizedRead rt tb dup msg.message = .ret args) :
    methodWrapper rt tb dup sd st fn outSignature bus msg =
      calledWith rt sd st fn outSignature bus msg.path msg.interface args := by
  rw [methodWrapper, methodBody, h]
  rfl

/-- The function is called with one argument for each type of the in-signature, the decoded items in
    order; except that a single array (not a dictionary), byte array, struct or variant is spread,
    and the function is called with the elements of the array or tuple it decodes to. -/
theorem methodWrapper_arguments (rt : Runtime) (tb : Tables) (dup : ℤ → Except String ℤ) (sd : SdBus)
    (st : AppendState) (fn : Function) (outSignature : List UInt8) (bus : Janet)
    (path interface : CString) (ts : List Ty) (body : List Item) (ahead : List (List Item))
    (hty : Item.HaveTys ts body) (hread : validItems (readable dup) body = true) :
    (¬ (∃ t, ts = [t] ∧ Spreads t = true) → (decodeAll tb dup body).length = ts.length ∧
      methodWrapper rt tb dup sd st fn outSignature bus ⟨cursorAt body ahead, path, interface⟩ =
        calledWith rt sd st fn outSignature bus path interface (decodeAll tb dup body)) ∧
    ∀ t i, ts = [t] → body = [i] → Spreads t = true → ∃ xs,
      (decode tb dup i = .array xs ∨ decode tb dup i = .tuple xs) ∧
      methodWrapper rt tb dup sd st fn outSignature bus ⟨cursorAt body ahead, path, interface⟩ =
        calledWith rt sd st fn outSignature bus path interface xs := by
  have hall := normalizedRead_all rt tb hty hread ahead
  have hlen : (decodeAll tb dup body).length = ts.length := by
    rw [decodeAll_length, haveTys_length hty]
  refine ⟨fun hno => ⟨hlen, methodWrapper_of_read ?_⟩, ?_⟩
  · rw [hall]
    congr 1
    by_cases hone : ts.length = 1
    · -- one item, of a type that does not spread
      obtain ⟨t, rfl⟩ := List.length_eq_one_iff.mp hone
      have ht : Spreads t = false := by
        cases h : Spreads t with
        | true => exact absurd ⟨t, rfl, h⟩ hno
        | false => rfl
      cases hty with
      | cons _ _ i _ hi his =>
        cases his with
        | nil =>
          rw [validItems, validItems, Bool.and_true] at hread
          rw [decodeAll, decodeAll]
          exact normalize_decode hi ht hread
    · exact normalize_collapse (by rw [hlen]; exact hone)
  · rintro t i rfl rfl ht
    cases hty with
    | cons _ _ _ _ hi _ =>
      obtain ⟨xs, hxs⟩ := decode_spreads tb dup hi ht
      refine ⟨xs, hxs, methodWrapper_of_read ?_⟩
      rw [hall, decodeAll, decodeAll]
      rcases hxs with hxs | hxs
      · rw [hxs]; rfl
      · rw [hxs]; rfl

/-- An array of three doubles. -/
def threeDoubles : Item :=
  .container .array ['d'] [.basic (.double (.fin 1)), .basic (.double (.fin 2)), .basic (.double (.fin 3))]

theorem threeDoubles_typed : Item.HaveTys [.array (.basic .double)] [threeDoubles] :=
  .cons _ _ _ _ (.array (.basic .double) _ (.cons _ _ _ (.basic (.double _))
    (.cons _ _ _ (.basic (.double _)) (.cons _ _ _ (.basic (.double _)) (.nil _))))) .nil

/-- One array of three doubles makes three arguments. -/
theorem normalizedRead_spreads : Item.HaveTys [.array (.basic .double)] [threeDoubles] ∧
    ∃ args, normalizedRead silentRuntime frontTables (fun _ => .error "") (sealMessage [threeDoubles]) =
      .ret args ∧ args.length = 3 :=
  ⟨threeDoubles_typed, _, rfl, rfl⟩

theorem methodWrapper_arguments_spread : ∃ xs, (decode frontTables (fun _ => .error "") threeDoubles =
      .array xs ∨ decode frontTables (fun _ => .error "") threeDoubles = .tuple xs) ∧
    methodWrapper silentRuntime frontTables (fun _ => .error "") checkingBus (initial [])
        (fun _ _ => .ret .nil) [] .nil
        ⟨cursorAt [threeDoubles] [], ⟨[47], by decide⟩, ⟨[97, 46, 98], by decide⟩⟩ =
      calledWith silentRuntime checkingBus (initial []) (fun _ _ => .ret .nil) [] .nil
        ⟨[47], by decide⟩ ⟨[97, 46, 98], by decide⟩ xs :=
  (methodWrapper_arguments silentRuntime frontTables (fun _ => .error "") checkingBus (initial [])
    (fun _ _ => .ret .nil) [] .nil ⟨[47], by decide⟩ ⟨[97, 46, 98], by decide⟩
    [.array (.basic .double)] [threeDoubles] [] threeDoubles_typed rfl).2 _ _ rfl rfl rfl

/-! ### Results -/

theorem renderAll_eq_nil {ts : List Ty} (h : renderAll ts = []) : ts = [] := by
  cases ts with
  | nil => rfl
  | cons t ts =>
    have hpos := t.render_pos
    have hlen := congrArg List.length h
    rw [renderAll, List.length_append, List.length_nil] at hlen
    omega

/-- Conforming values that sd-bus accepts are appended. -/
theorem messageAppend_returns {ts : List Ty} {bs : List UInt8} {vs : List Janet} {is : List Item}
    (hbs : chars bs = renderAll ts) (hne : vs ≠ []) (his : denoteFields rt ts vs = some is)
    (hacc : Accepted sd [] (callsAll is)) :
    messageAppend rt sd st bs vs = .ret (callsAll is) := by
  obtain ⟨st', happend, hcalls⟩ : ∃ st', cfunMessageAppend rt sd (.string bs) vs { st with calls := [] } =
      .ok () st' ∧ st'.calls = [] ++ callsAll is := cfunMessageAppend_returns hbs hne his hacc
  rw [messageAppend, happend]
  simp only [hcalls, List.nil_append]

/-- What a wrapper sends whose function returns `result`. -/
theorem calledWith_ret {outSignature : List UInt8} {bus result : Janet} {path interface : CString}
    {args : List Janet} : calledWith rt sd st (fun _ _ => .ret result) outSignature bus path interface args =
      (answer rt sd st outSignature result).tryCatch fun err =>
        (sendError rt err).bind fun _ => .raise err := rfl

/-- A method return is sent only if the result was appended. -/
theorem answer_append {outSignature : List UInt8} {result : Janet} {body : Option (List Item)}
    (h : (answer rt sd st outSignature result).tryCatch (fun err =>
      (sendError rt err).bind fun _ => .raise err) = .emit (.methodReturn body) (.ret ()))
    (hne : outSignature ≠ []) : ∃ st', cfunMessageAppend rt sd (.string outSignature) [result]
      { st with calls := [] } = .ok () st' := by
  rw [answer, if_neg hne, messageAppend] at h
  split at h
  · next st' hst' => exact ⟨st', hst'⟩
  · next e _ _ =>
    rw [bind_ofStop] at h
    cases e with
    | fault => simp [ofStop, Fiber.tryCatch] at h
    | deep => simp [ofStop, Fiber.tryCatch] at h
    | panic msg =>
      simp only [ofStop, Fiber.tryCatch] at h
      cases hc : (janetString msg).cstring with
      | none =>
        obtain ⟨e, he⟩ := sendError_other rt hc
        simp [he, Fiber.bind] at h
      | some s => simp [sendError_cstring rt hc, Fiber.bind] at h

/-- A signature has an answer with a given body, which the caller, if there are no descriptors in it,
    reads as the canonical values, if and only if it is empty or a single type. -/
theorem methodWrapper_answers_iff (rt : Runtime) (tb : Tables) (dup : ℤ → Except String ℤ) (sd : SdBus)
    (hsd : Checks sd) (st : AppendState) (bus : Janet) (msg : MethodCall) (args : List Janet)
    (hargs : normalizedRead rt tb dup msg.message = .ret args) (outSignature : List UInt8)
    (ts : List Ty) (hout : chars outSignature = renderAll ts) (vs : List Janet) (is : List Item)
    (his : denoteFields rt ts vs = some is) (hacc : Accepted sd [] (callsAll is)) :
    (∃ result, methodWrapper rt tb dup sd st (fun _ _ => .ret result) outSignature bus msg =
        .emit (.methodReturn (some is)) (.ret ()) ∧
      (validItems notFd is = true → ∃ ws r, FieldsCanonical rt ts vs ws ∧
        cfunMessageRead rt tb dup .all (sealMessage is) = .ok (collapse ws) r)) ↔ ts.length ≤ 1 := by
  have hwrap : ∀ result, methodWrapper rt tb dup sd st (fun _ _ => .ret result) outSignature bus msg =
      (answer rt sd st outSignature result).tryCatch fun err =>
        (sendError rt err).bind fun _ => .raise err := fun result => by
    rw [methodWrapper_of_read hargs, calledWith_ret]
  have hbuild : build (callsAll is) = some is := build_calls (denoteFields_typed his)
  constructor
  · rintro ⟨result, hresult, _⟩
    rw [hwrap] at hresult
    by_cases hne : outSignature = []
    · subst hne
      have hnil : ts = [] := renderAll_eq_nil hout.symm
      simp [hnil]
    · obtain ⟨st', hst'⟩ := answer_append hresult hne
      obtain ⟨js, hjs, _⟩ := messageAppend_fits hsd hout hst'
      exact Nat.le_of_eq (denoteFields_length hjs)
  · intro hlen
    have hread : validItems notFd is = true → ∃ ws r, FieldsCanonical rt ts vs ws ∧
        cfunMessageRead rt tb dup .all (sealMessage is) = .ok (collapse ws) r := fun hfd => by
      obtain ⟨r, hr⟩ := messageRead_all rt tb (denoteFields_typed his)
        (validItems_mono readable_of_notFd is hfd) [is]
      exact ⟨_, r, fieldsCanonical (fun v _ t i => decode_canonical tb dup v t i) his hfd, hr⟩
    match ts, vs with
    | [], [] =>
      have hnil : outSignature = [] := List.map_eq_nil_iff.mp hout
      obtain rfl : is = [] := by simpa [denoteFields] using his.symm
      exact ⟨.nil, by rw [hwrap, answer, if_pos hnil]; rfl, hread⟩
    | [t], [v] =>
      have hne : outSignature ≠ [] := fun h => by
        have hnil : [t] = [] := renderAll_eq_nil (by rw [← hout, h]; rfl)
        exact absurd hnil (by simp)
      refine ⟨v, ?_, hread⟩
      rw [hwrap, answer, if_neg hne, messageAppend_returns hout (by simp) his hacc]
      simp only [Fiber.bind, Fiber.tryCatch, hbuild]
    | t :: u :: ts, _ => simp at hlen
    | [], v :: vs => simp [denoteFields] at his
    | [t], [] => simp [denoteFields] at his
    | [t], v :: w :: vs => simp [denoteFields] at his

theorem checkingBus_checks : Checks checkingBus := fun hist k s hfit =>
  (checkingBus_accepts hist _).mpr ⟨k, s, rfl, hfit⟩

/-- A call without arguments. -/
def emptyCall : MethodCall := ⟨sealMessage [], ⟨[47], by decide⟩, ⟨[97, 46, 98], by decide⟩⟩

def hi : CString := ⟨[104, 105], by decide⟩

/-- One string is answered. -/
theorem methodWrapper_answers_string : ∃ result, methodWrapper silentRuntime frontTables
      (fun _ => .error "") checkingBus (initial []) (fun _ _ => .ret result) [115] .nil emptyCall =
      .emit (.methodReturn (some [.basic (.string hi)])) (.ret ()) ∧
    (validItems notFd [.basic (.string hi)] = true → ∃ ws r,
      FieldsCanonical silentRuntime [.basic .string] [.string [104, 105]] ws ∧
      cfunMessageRead silentRuntime frontTables (fun _ => .error "") .all
        (sealMessage [.basic (.string hi)]) = .ok (collapse ws) r) :=
  (methodWrapper_answers_iff silentRuntime frontTables (fun _ => .error "") checkingBus
    checkingBus_checks (initial []) .nil emptyCall [] rfl [115] [.basic .string] rfl
    [.string [104, 105]] [.basic (.string hi)] rfl ⟨by decide, trivial⟩).mpr (by decide)

/-- Nothing that a function returns answers for two strings. -/
theorem methodWrapper_two_strings : ¬ ∃ result, methodWrapper silentRuntime frontTables
    (fun _ => .error "") checkingBus (initial []) (fun _ _ => .ret result) [115, 115] .nil emptyCall =
    .emit (.methodReturn (some [.basic (.string hi), .basic (.string hi)])) (.ret ()) := by
  rintro ⟨result, h⟩
  have hread : normalizedRead silentRuntime frontTables (fun _ => .error "") emptyCall.message =
      .ret [] := rfl
  have hsig : chars [115, 115] = renderAll [.basic .string, .basic .string] := rfl
  rw [methodWrapper_of_read hread, calledWith_ret] at h
  obtain ⟨st', hst'⟩ := answer_append h (by simp)
  obtain ⟨js, hjs, _⟩ := messageAppend_fits checkingBus_checks hsig hst'
  exact absurd (denoteFields_length hjs) (by simp)

end JanetSdbus.Export
