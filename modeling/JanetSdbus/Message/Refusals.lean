import JanetSdbus.Message.Decode

/-! What sd-bus may refuse.

    A refused call is a Janet error, so sd-bus decides whether the encoder goes on and nothing else:
    a run that returns returns the same way under any sd-bus that accepts the calls it made
    (`Obeys`). With that the encoder is known for every sd-bus that refuses contents that do not
    fit, whatever else it refuses (`appendData_ok_iff`). -/

namespace JanetSdbus.Message
open DBus Schemes.CMemory

/-- The calls `cs`, made after `hist`, are all accepted. -/
def Accepted (sd : SdBus) : List Call → List Call → Prop
  | _, [] => True
  | hist, c :: cs => ¬ sd hist c < 0 ∧ Accepted sd (hist ++ [c]) cs

theorem accepted_append {sd : SdBus} : ∀ {hist cs ds : List Call},
    Accepted sd hist (cs ++ ds) ↔ Accepted sd hist cs ∧ Accepted sd (hist ++ cs) ds
  | hist, [], ds => by simp [Accepted]
  | hist, c :: cs, ds => by
    rw [List.cons_append, Accepted, Accepted, accepted_append, List.append_assoc, and_assoc]
    rfl

/-- A run of `m` that returns has its calls accepted, and runs the same under any sd-bus that
    accepts them. -/
def Obeys {α : Type} (m : SdBus → Append α) : Prop :=
  ∀ sd st a st', m sd st = .ok a st' → ∃ cs, st'.calls = st.calls ++ cs ∧ Accepted sd st.calls cs ∧
    ∀ sd', Accepted sd' st.calls cs → m sd' st = .ok a st'

variable {α β : Type} {rt : Runtime}

theorem Obeys.bind {x : SdBus → Append α} {f : SdBus → α → Append β} (hx : Obeys x)
    (hf : ∀ a, Obeys fun sd => f sd a) : Obeys fun sd => x sd >>= f sd := by
  intro sd st b st' h
  obtain ⟨a, st₁, h₁, h₂⟩ := run_bind.mp h
  obtain ⟨cs, hcs, hacc, hback⟩ := hx sd st a st₁ h₁
  obtain ⟨ds, hds, hacc₂, hback₂⟩ := hf a sd st₁ b st' h₂
  rw [hcs] at hds hacc₂ hback₂
  refine ⟨cs ++ ds, by rw [hds, List.append_assoc], accepted_append.mpr ⟨hacc, hacc₂⟩, ?_⟩
  intro sd' hsd'
  obtain ⟨hcs', hds'⟩ := accepted_append.mp hsd'
  exact run_bind.mpr ⟨a, st₁, hback sd' hcs', hback₂ sd' hds'⟩

/-- A piece that makes no call. -/
def Quiet (m : Append α) : Prop := ∀ st a st', m st = .ok a st' → st'.calls = st.calls

theorem Quiet.obeys {m : Append α} (h : Quiet m) : Obeys fun _ => m := by
  intro sd st a st' hrun
  exact ⟨[], by rw [h st a st' hrun, List.append_nil], trivial, fun _ _ => hrun⟩

theorem Quiet.bind {x : Append α} {f : α → Append β} (hx : Quiet x) (hf : ∀ a, Quiet (f a)) :
    Quiet (x >>= f) := by
  intro st b st' h
  obtain ⟨a, st₁, h₁, h₂⟩ := run_bind.mp h
  rw [hf a st₁ b st' h₂, hx st a st₁ h₁]

theorem obeys_call (c : Call) : Obeys fun sd => callSdBusFunc rt sd c := by
  intro sd st a st' h
  obtain ⟨hok, rfl⟩ := run_call.mp h
  refine ⟨[c], rfl, ⟨hok, trivial⟩, ?_⟩
  rintro sd' ⟨hok', -⟩
  exact run_call.mpr ⟨hok', rfl⟩

/-! ### Pieces that make no call -/

theorem quiet_pure (a : α) : Quiet (pure a : Append α) := by
  intro st b st' h
  rw [(run_pure.mp h).2]

theorem quiet_panic (msg : String) : Quiet (janetPanic msg : Append α) := fun _ _ _ h =>
  absurd h run_panic

theorem quiet_access (f : Mem → Option α) : Quiet (access f) := by
  intro st a st' h
  rw [(run_access.mp h).2]

theorem quiet_update (f : Mem → Option Mem) : Quiet (update f) := by
  intro st a st' h
  obtain ⟨m, _, rfl⟩ := run_update.mp h
  rfl

theorem quiet_allocate (f : Mem → Ptr × Mem) : Quiet (allocate f) := by
  intro st a st' h
  obtain ⟨_, rfl⟩ := run_allocate.mp h
  rfl

theorem quiet_panicIf (c : Prop) [Decidable c] (msg : Append String) : Quiet (panicIf c msg) := by
  intro st a st' h
  rw [(run_panicIf.mp h).2]

theorem quiet_skip (p : Ptr) (n : ℕ) : Quiet (skip p n) :=
  (quiet_access _).bind fun _ => quiet_pure _

theorem quiet_scan (f : List Char → Except String ℕ) (p : Ptr) : Quiet (scan f p) := by
  intro st a st' h
  obtain ⟨_, _, _, rfl⟩ := run_scan.mp h
  rfl

theorem quiet_getter (check : Janet → Option α) (ty : String) (x : Janet) :
    Quiet (getter rt check ty x) := by
  intro st a st' h
  rw [(run_getter.mp h).2]

theorem Silent.quiet {enter : Append Unit} (h : Silent enter) : Quiet enter := by
  intro st a st' hrun
  rw [(h.done hrun).calls_eq, List.append_nil]

/-! ### The walker -/

theorem obeys_convert {get : Append α} (mk : α → Call) (hget : Quiet get) :
    Obeys fun sd => get >>= fun a => callSdBusFunc rt sd (mk a) :=
  hget.obeys.bind fun _ => obeys_call _

theorem obeys_basic (p : Ptr) (arg : Janet) : Obeys fun sd => appendBasicType rt sd p arg := by
  refine (quiet_access _).obeys.bind fun ch => ?_
  cases Code.ofChar ch with
  | none => exact (quiet_pure ()).obeys
  | some c =>
    cases c with
    | int64 =>
      refine obeys_convert _ fun st a st' h => ?_
      rw [(run_getinteger64.mp h).2]
    | uint64 =>
      refine obeys_convert _ fun st a st' h => ?_
      rw [(run_getuinteger64.mp h).2]
    | string | objectPath | signature =>
      refine obeys_convert _ fun st a st' h => ?_
      rw [(run_getcstring.mp h).2]
    | fd =>
      refine obeys_convert _ fun st a st' h => ?_
      rw [(run_getfd.mp h).2]
    | _ => exact obeys_convert _ (quiet_getter _ _ _)

section rec
variable {rec : SdBus → Ptr → Janet → Append Ptr} (hrec : ∀ p v, Obeys fun sd => rec sd p v)
include hrec

theorem obeys_variant (p : Ptr) (arg : Janet) : Obeys fun sd => appendVariantType rt sd (rec sd) p arg := by
  refine (quiet_getter _ _ _).obeys.bind fun xs => ?_
  match xs with
  | [] | [_] | _ :: _ :: _ :: _ => exact (quiet_panic _).obeys
  | [sig, x] =>
    cases sig with
    | string bs =>
      cases hbs : janetGetcbytes bs with
      | none =>
        simp only [hbs]
        exact (quiet_panic _).obeys
      | some s =>
        simp only [hbs]
        refine (quiet_allocate _).obeys.bind fun q => ?_
        refine (quiet_access _).obeys.bind fun contents => ?_
        refine (obeys_call _).bind fun _ => ?_
        refine (hrec q x).bind fun _ => ?_
        exact (obeys_call _).bind fun _ => (quiet_pure p).obeys
    | _ => exact (quiet_panic _).obeys

theorem obeys_loop (excessive : String) {enter : Append Unit} (henter : Quiet enter) (signature : Ptr) :
    ∀ (p : Ptr) (xs : List Janet), Obeys fun sd => appendLoop (rec sd) excessive enter signature p xs
  | p, [] => (quiet_pure p).obeys
  | p, x :: xs => by
    simp only [appendLoop]
    refine (quiet_access _).obeys.bind fun ch => ?_
    refine (quiet_panicIf _ _).obeys.bind fun _ => ?_
    refine henter.obeys.bind fun _ => ?_
    refine (hrec p x).bind fun q => ?_
    exact (quiet_skip q 1).obeys.bind fun q => obeys_loop excessive henter signature q xs

theorem obeys_struct (p : Ptr) (arg : Janet) : Obeys fun sd => appendStructType rt sd (rec sd) p arg := by
  refine (quiet_scan _ p).obeys.bind fun end_ => ?_
  refine (quiet_panicIf _ _).obeys.bind fun _ => ?_
  refine (quiet_allocate _).obeys.bind fun struct_sig => ?_
  refine (quiet_update _).obeys.bind fun _ => ?_
  refine (quiet_skip p end_).obeys.bind fun p => ?_
  refine (quiet_access _).obeys.bind fun contents => ?_
  refine (obeys_call _).bind fun _ => ?_
  refine (quiet_getter _ _ _).obeys.bind fun array => ?_
  refine (quiet_panicIf _ _).obeys.bind fun _ => ?_
  refine (obeys_loop hrec _ (quiet_pure ()) _ _ _).bind fun q => ?_
  refine (quiet_access _).obeys.bind fun ch => ?_
  refine (quiet_panicIf _ _).obeys.bind fun _ => ?_
  refine (obeys_call _).bind fun _ => ?_
  exact (quiet_update _).obeys.bind fun _ => (quiet_pure p).obeys

theorem obeys_entries (dict_sig : Ptr) : ∀ kvs : List (Janet × Janet),
    Obeys fun sd => appendEntries rt sd (rec sd) dict_sig kvs
  | [] => (quiet_pure ()).obeys
  | (key, value) :: kvs => by
    simp only [appendEntries]
    refine (quiet_access _).obeys.bind fun contents => ?_
    refine (obeys_call _).bind fun _ => ?_
    refine (obeys_basic dict_sig key).bind fun _ => ?_
    refine (quiet_skip dict_sig 1).obeys.bind fun q => ?_
    refine (hrec q value).bind fun _ => ?_
    exact (obeys_call _).bind fun _ => obeys_entries dict_sig kvs

theorem obeys_dict (p : Ptr) (arg : Janet) : Obeys fun sd => appendDictType rt sd (rec sd) p arg := by
  refine (quiet_scan _ p).obeys.bind fun end_ => ?_
  refine (quiet_panicIf _ _).obeys.bind fun _ => ?_
  refine (quiet_allocate _).obeys.bind fun dict_sig => ?_
  refine (quiet_update _).obeys.bind fun _ => ?_
  refine (quiet_skip p end_).obeys.bind fun p => ?_
  refine (quiet_access _).obeys.bind fun key => ?_
  refine (quiet_panicIf _ _).obeys.bind fun _ => ?_
  refine (quiet_access _).obeys.bind fun contents => ?_
  refine (obeys_call _).bind fun _ => ?_
  refine (quiet_update _).obeys.bind fun _ => ?_
  refine (quiet_update _).obeys.bind fun _ => ?_
  refine (quiet_getter _ _ _).obeys.bind fun dict => ?_
  refine (obeys_entries hrec dict_sig dict).bind fun _ => ?_
  refine (obeys_call _).bind fun _ => ?_
  exact (quiet_update _).obeys.bind fun _ => (quiet_pure p).obeys

theorem obeys_elements (array_sig : Ptr) : ∀ xs : List Janet,
    Obeys fun sd => appendElements (rec sd) array_sig xs
  | [] => (quiet_pure ()).obeys
  | x :: xs => by
    simp only [appendElements]
    exact (hrec array_sig x).bind fun _ => obeys_elements array_sig xs

theorem obeys_array (p : Ptr) (arg : Janet) : Obeys fun sd => appendArrayType rt sd (rec sd) p arg := by
  refine (quiet_access _).obeys.bind fun ch => ?_
  split
  · exact (quiet_skip p 1).obeys.bind fun q => obeys_dict hrec q arg
  · split
    · refine (quiet_skip p 1).obeys.bind fun q => ?_
      refine (quiet_getter _ _ _).obeys.bind fun view => ?_
      exact (obeys_call _).bind fun _ => (quiet_pure q).obeys
    · refine (quiet_scan _ p).obeys.bind fun end_ => ?_
      refine (quiet_allocate _).obeys.bind fun array_sig => ?_
      refine (quiet_update _).obeys.bind fun _ => ?_
      refine (quiet_skip p end_).obeys.bind fun p => ?_
      refine (quiet_access _).obeys.bind fun contents => ?_
      refine (obeys_call _).bind fun _ => ?_
      refine (quiet_getter _ _ _).obeys.bind fun array => ?_
      refine (obeys_elements hrec array_sig array).bind fun _ => ?_
      refine (obeys_call _).bind fun _ => ?_
      exact (quiet_update _).obeys.bind fun _ => (quiet_pure p).obeys

theorem obeys_branch (ch : Char) (p : Ptr) (arg : Janet) :
    Obeys fun sd => appendBranch rt sd (rec sd) ch p arg := by
  simp only [appendBranch]
  split
  · exact (obeys_basic p arg).bind fun _ => (quiet_pure p).obeys
  · split
    · exact obeys_variant hrec p arg
    · split
      · exact obeys_struct hrec p arg
      · split
        · exact obeys_array hrec p arg
        · exact (quiet_panic _).obeys

theorem obeys_body (p : Ptr) (arg : Janet) : Obeys fun sd => appendCompleteBody rt sd (rec sd) p arg := by
  refine (quiet_scan _ p).obeys.bind fun len => ?_
  refine (silent_set p len).quiet.obeys.bind fun _ => ?_
  refine (quiet_access _).obeys.bind fun ch => ?_
  refine (obeys_branch hrec ch p arg).bind fun q => ?_
  exact silent_exit.quiet.obeys.bind fun _ => (quiet_pure q).obeys

end rec

theorem obeys_complete : ∀ (n : ℕ) (p : Ptr) (arg : Janet),
    Obeys fun sd => appendCompleteType rt sd n p arg
  | 0, _, _ => fun _ _ _ _ h => absurd h run_throw
  | n + 1, p, arg => obeys_body (obeys_complete n) p arg

theorem obeys_data (signature : Ptr) (args : List Janet) :
    Obeys fun sd => appendData rt sd signature args := by
  refine silent_reset.quiet.obeys.bind fun _ => ?_
  refine (obeys_loop (obeys_complete _) _ silent_inc.quiet _ _ _).bind fun p => ?_
  refine (quiet_access _).obeys.bind fun ch => ?_
  exact (quiet_panicIf _ _).obeys.bind fun _ => (quiet_pure p).obeys

/-! ### The encoder under any sd-bus -/

section data
variable {sd : SdBus} {st : AppendState} {p : Ptr} {sig : List Char} {args : List Janet}

/-- sd-bus refuses contents that do not fit their container. -/
def Checks (sd : SdBus) : Prop := ∀ hist k s, ¬ Fits k s → sd hist (.openContainer k s) < 0

theorem Checks.accepted (hsd : Checks sd) : ∀ {hist cs : List Call}, Accepted sd hist cs →
    Accepted checkingBus hist cs
  | _, [], _ => trivial
  | hist, c :: cs, h => by
    refine ⟨?_, hsd.accepted h.2⟩
    rw [checkingBus_accepts]
    rintro ⟨k, s, rfl, hfit⟩
    exact h.1 (hsd hist k s hfit)

/-- What a return of `append_data` tells. -/
theorem appendData_fits (hsd : Checks sd) (hs : Str st.mem p sig) {q : Ptr} {st' : AppendState}
    (h : appendData rt sd p args st = .ok q st') : ∃ ts is, sig = renderAll ts ∧
      denoteFields rt ts args = some is ∧ st'.calls = st.calls ++ callsAll is ∧
      Accepted sd st.calls (callsAll is) := by
  obtain ⟨cs, hcs, hacc, hback⟩ := obeys_data p args sd st q st' h
  have hrun := hback checkingBus (hsd.accepted hacc)
  obtain ⟨ts, is, rfl, his⟩ := appendData_sound checkingBus_accepts hs hrun
  obtain ⟨st₁, hrun₁, hdone, _⟩ := appendData_complete checkingBus_accepts hs his
  obtain ⟨_, rfl⟩ := EStateM.Result.ok.inj (hrun₁.symm.trans hrun)
  obtain rfl : cs = callsAll is := List.append_cancel_left (hcs.symm.trans hdone.calls_eq)
  exact ⟨ts, is, rfl, his, hcs, hacc⟩

/-- Conforming values are appended if sd-bus accepts what they stand for. -/
theorem appendData_returns {ts : List Ty} {is : List Item} (hs : Str st.mem p (renderAll ts))
    (his : denoteFields rt ts args = some is) (hacc : Accepted sd st.calls (callsAll is)) :
    ∃ q st', appendData rt sd p args st = .ok q st' ∧ st'.calls = st.calls ++ callsAll is := by
  obtain ⟨st₁, hrun, hdone, _⟩ := appendData_complete checkingBus_accepts hs his
  obtain ⟨cs, hcs, _, hback⟩ := obeys_data p args checkingBus st _ st₁ hrun
  obtain rfl : cs = callsAll is := List.append_cancel_left (hcs.symm.trans hdone.calls_eq)
  exact ⟨_, st₁, hback sd hacc, hcs⟩

end data

/-! ### An sd-bus that judges values one by one -/

/-- sd-bus refuses contents that do not fit and basic values that are not valid, and nothing else.
    A byte is always valid. -/
structure Judges (sd : SdBus) (valid : Basic → Bool) : Prop where
  contents : ∀ hist k s, ¬ sd hist (.openContainer k s) < 0 ↔ Fits k s
  close : ∀ hist, ¬ sd hist .closeContainer < 0
  array : ∀ hist bs, ¬ sd hist (.appendArray bs) < 0
  basic : ∀ hist x, ¬ sd hist (basicCall x) < 0 ↔ valid x = true
  byte : ∀ b, valid (.byte b) = true

section judges
variable {sd : SdBus} {valid : Basic → Bool} (hsd : Judges sd valid)
include hsd

theorem Judges.checks : Checks sd := fun hist k s hfit => by
  by_contra h
  exact hfit ((hsd.contents hist k s).mp h)

theorem Judges.bytes (bs : List UInt8) :
    validItems valid (bs.map fun b => .basic (.byte b)) = true := by
  induction bs with
  | nil => rfl
  | cons b bs ih => rw [List.map_cons, validItems, validItem, hsd.byte, ih]; rfl

/-- A container is accepted if its contents fit and its items are accepted. -/
theorem Judges.container {hist : List Call} {k : Container} {s : List Char} {is : List Item}
    (hfit : Fits k s) (hne : ¬ (k = .array ∧ s = [Code.byte.char]))
    (his : ∀ hist, Accepted sd hist (callsAll is) ↔ validItems valid is = true) :
    Accepted sd hist (calls (.container k s is)) ↔ validItem valid (.container k s is) = true := by
  rw [calls, if_neg hne, Accepted, accepted_append, validItem, his, hsd.contents]
  constructor
  · exact fun h => h.2.1
  · exact fun h => ⟨hfit, h, hsd.close _, trivial⟩

end judges

section accepted
variable {sd : SdBus} {valid : Basic → Bool}

mutual
/-- The calls for a well-typed item are accepted if its basic values are valid. -/
theorem accepted_item (hsd : Judges sd valid) : ∀ {t : Ty} {i : Item}, Item.HasTy t i → ∀ hist,
    (Accepted sd hist (calls i) ↔ validItem valid i = true)
  | _, _, .basic x, hist => by
    rw [calls, Accepted, validItem, hsd.basic]
    exact and_iff_left trivial
  | _, _, .variant t i hi, hist => by
    refine hsd.container ⟨t, rfl⟩ (by simp) fun hist => ?_
    rw [callsAll, callsAll, List.append_nil, validItems, validItems, Bool.and_true]
    exact accepted_item hsd hi hist
  | _, _, .array t is his, hist => by
    cases ht : isByte t with
    | true =>
      obtain rfl := isByte_eq ht
      obtain ⟨bs, rfl⟩ := bytes_of_each his
      have hcalls := calls_bytes bs
      rw [bytesItem] at hcalls
      rw [Ty.render, hcalls, validItem, hsd.bytes]
      exact iff_of_true ⟨hsd.array _ _, trivial⟩ rfl
    | false =>
      have hne : t.render ≠ [Code.byte.char] := fun h => render_ne_byte ht (by rw [h]; rfl)
      exact hsd.container (.inl ⟨t, rfl⟩) (fun h => hne h.2) fun hist => accepted_each hsd his hist
  | _, _, .dict k v es hes, hist => by
    refine hsd.container (.inr ⟨k, v, rfl⟩) (fun h => ?_) fun hist => accepted_entries hsd hes hist
    have hlen := h.2
    simp [renderEntry] at hlen
  | _, _, .struct t ts is his, hist =>
    hsd.container ⟨t :: ts, rfl⟩ (by simp) fun hist => accepted_fields hsd his hist
theorem accepted_each (hsd : Judges sd valid) : ∀ {t : Ty} {is : List Item}, Item.EachHasTy t is → ∀ hist,
    (Accepted sd hist (callsAll is) ↔ validItems valid is = true)
  | _, _, .nil _, hist => by rw [callsAll, validItems]; exact iff_of_true trivial rfl
  | _, _, .cons t i is hi his, hist => by
    rw [callsAll, accepted_append, accepted_item hsd hi, accepted_each hsd his, validItems, Bool.and_eq_true]
theorem accepted_entries (hsd : Judges sd valid) : ∀ {k : Code} {v : Ty} {es : List Item}, Item.EntriesHaveTy k v es →
    ∀ hist, (Accepted sd hist (callsAll es) ↔ validItems valid es = true)
  | _, _, _, .nil _ _, hist => by rw [callsAll, validItems]; exact iff_of_true trivial rfl
  | _, _, _, .cons x v i es hi hes, hist => by
    rw [callsAll, accepted_append, accepted_entries hsd hes, validItems, Bool.and_eq_true]
    refine and_congr_left fun _ => hsd.container ⟨x.code, v, rfl⟩ (by simp) fun hist => ?_
    rw [callsAll, callsAll, callsAll, List.append_nil, accepted_append, accepted_item hsd (.basic x), accepted_item hsd hi]
    simp [validItems]
theorem accepted_fields (hsd : Judges sd valid) : ∀ {ts : List Ty} {is : List Item}, Item.HaveTys ts is → ∀ hist,
    (Accepted sd hist (callsAll is) ↔ validItems valid is = true)
  | _, _, .nil, hist => by rw [callsAll, validItems]; exact iff_of_true trivial rfl
  | _, _, .cons t ts i is hi his, hist => by
    rw [callsAll, accepted_append, accepted_item hsd hi, accepted_fields hsd his, validItems,
      Bool.and_eq_true]
end

end accepted

end JanetSdbus.Message
