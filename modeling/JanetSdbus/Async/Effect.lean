import JanetSdbus.Async.View

/-! What each step does, in terms of views.

    `step_effect` inverts `step` once: the subject of the step and how its view changed. The three
    steps that sweep the queue are covered by `busCallback_swept` and `cfunCloseBus_swept`, which
    carry a property through the loop of `closeall_pending`. -/

namespace JanetSdbus.Async
open Schemes.LinkedList Schemes.Run

variable {w w' w₁ w₂ : World} {p x : Ptr} {es es₁ es₂ : List Event}

/-! ### Steps with one subject -/

inductive Effect (w : World) : Step → World → Prop
  | callAsync {c : ChanId} {rv : ℤ} {w' : World} : (w.chans c).rooted = true →
    (rv < 0 ∨ w.conn.bus = true) → Started w w' c .Call rv → Effect w (.callAsync c rv) w'
  | matchAsync {c : ChanId} {rv : ℤ} {w' : World} : (w.chans c).rooted = true →
    (rv < 0 ∨ w.conn.bus = true) → Started w w' c .Match rv → Effect w (.matchAsync c rv) w'
  | returned {p : Ptr} (es : List Event) : p < w.nextPtr → (w.handles p).ref = .callee →
    (∀ e ∈ es, e = .finalizedHandle p ∧ (w.handles p).finalized = true ∨
      e = .freedRecord .caller p) →
    Effect w (.returned p) ((w.logged es).setHandle p { w.handles p with ref := .user })
  | reply {p : Ptr} {m : Message} {w' : World} : w.callable p .Call = true → w.isReply p m →
    GaveEnds w .handler p (handlerTuple .Call m) (processReply w p m) →
    Gave w w' .handler p (handlerTuple .Call m) → p ∉ outstanding w'.log → Effect w (.reply p m) w'
  | matched {p : Ptr} {m : Message} {w' : World} : w.callable p .Match = true →
    (Quiet w w' p ∨ ∃ t, Gave w w' .handler p t) → outstanding w'.log = outstanding w.log →
    Effect w (.matched p m) w'
  | installed {p : Ptr} {m : Message} {w' : World} : w.callable p .Match = true →
    (Quiet w w' p ∨ ∃ t, Gave w w' .install p t) →
    (¬ LastRefused w p m → outstanding w'.log = outstanding w.log) → Effect w (.installed p m) w'
  | cancel {p : Ptr} (w₁ : World) : p < w.nextPtr → (w.handles p).ref = .user → Quiet w w₁ p →
    ((w.handles p).slot = some p → (w.slots p).refs ≤ w.busRef p + 1 → p ∉ outstanding w₁.log) →
    Effect w (.cancel p) (w₁.note (.cancelled p))
  | dropHandle {p : Ptr} : p < w.nextPtr → Effect w (.dropHandle p) (w.setHandle p { w.handles p with ref := .dropped })
  | dropChan {c : ChanId} : Effect w (.dropChan c)
      { w with chans := Function.update w.chans c { w.chans c with rooted := false } }
  | closeChan {c : ChanId} : Effect w (.closeChan c)
      { w with chans := Function.update w.chans c { w.chans c with closed := true } }
  | gcHandle {p : Ptr} (w₁ : World) : p < w.nextPtr → (w.handles p).ref ≠ .user →
    (w.handles p).finalized = false → Quiet w w₁ p → w₁ = releaseHandle w p →
    Effect w (.gcHandle p) (w₁.setHandle p { w₁.handles p with finalized := true })
  | gcChan {c : ChanId} : (w.chans c).rooted = false → Effect w (.gcChan c)
      { w with chans := Function.update w.chans c { w.chans c with finalized := true } }
  | hup {w' : World} : w.listening = true → (busCallback w .hup).world? = some w' → Effect w .hup w'
  | err {w' : World} : w.listening = true → (busCallback w .err).world? = some w' → Effect w .err w'
  | closeBus {w' : World} : (cfunCloseBus w).world? = some w' → Effect w .closeBus w'
  | busDrop {p : Ptr} {w' : World} : p < w.nextPtr → w.conn.bus = false → Quiet w w' p → Effect w (.busDrop p) w'

theorem GaveEnds.gave {src : Source} {t : Tuple} {o : Outcome} (h : GaveEnds w src p t o)
    (hw : o.world? = some w') : Gave w w' src p t := by
  cases o with
  | done w₁ => obtain rfl := Option.some.inj hw; exact h.2
  | raised w₁ e => obtain rfl := Option.some.inj hw; exact h.2
  | diverged => exact absurd h id

/-- An answered call has left the queue. -/
theorem Inv.reply_out (h : Inv w) {m : Message} (hk : (w.heap p).kind = .Call)
    (hm : m.type = .methodReturn ∨ ∃ e, m.type = .methodError e) :
    (processReply w p m).All fun w' => p ∉ outstanding w'.log := by
  refine Outcome.All.dispatched (Outcome.All.bind (P := fun w' => p ∉ outstanding w'.log)
    (messageHandler_call hk hm fun es es' hes hes' => ?_) ?_ (fun _ h' => h')) fun _ h' => h'
  · have ho : outstanding ((slotEnter w p).logged es).log = outstanding w.log :=
      outstanding_plain hes
    rw [World.logged, outstanding_plain hes', outstanding_answer, ho]
    exact h.repr.nodup.not_mem_erase
  · rintro w' _ h'
    obtain ⟨es, f, hes⟩ := (Quiet.detach w' p).trans (Quiet.unref (slotDetach w' p) p)
    show p ∉ outstanding (slotUnref (slotDetach w' p) p).log
    rw [f.log]
    exact fun hp => h' ((outstanding_quiet hes).2 hp)

/-- A match stays queued when it is told of a message. -/
theorem Inv.matched_keeps (h : Inv w) {m : Message} (hk : (w.heap p).kind = .Match)
    (hc : (w.slots p).connected = true) :
    (processMatch w p m).All fun w' => outstanding w'.log = outstanding w.log := by
  have ha := h.alive p hc
  refine Outcome.All.dispatched (Outcome.All.bind
    (P := fun w' => outstanding w'.log = outstanding w.log ∧ 1 < (w'.slots p).refs)
    (messageHandler_match hk fun es hes => ⟨outstanding_plain hes, ?_⟩) ?_ (fun _ h' => h'.1)) fun _ h' => h'
  · have hs : ((slotRef w p).slots p).refs = (w.slots p).refs + 1 := by simp [slotRef]
    show 1 < ((slotRef w p).slots p).refs
    omega
  · rintro w' _ ⟨h₁, h₂⟩
    show outstanding (slotUnref w' p).log = _
    rw [slotUnref_more h₂]
    exact h₁

theorem Inv.installed_keeps (h : Inv w) {m : Message} (hc : (w.slots p).connected = true)
    (hno : ¬ LastRefused w p m) :
    (processInstall w p m).All fun w' => outstanding w'.log = outstanding w.log := by
  obtain ⟨hi, hx⟩ := h.enter hc
  have ha := h.alive p hc
  have hslot := slotEnter_slot w p
  refine Outcome.All.dispatched (Outcome.All.bind (signalInstallHandler_all (P := fun w' => ∃ es : List Event,
    (∀ e ∈ es, e.plain = true) ∧ w' = (slotEnter w p).logged es) fun es hes => ⟨es, hes, rfl⟩)
    ?_ ?_) fun _ h' => h'
  · rintro w' hdone ⟨es, hes, rfl⟩
    have ho : outstanding ((slotEnter w p).logged es).log = outstanding w.log :=
      outstanding_plain hes
    have hrefs : (((slotEnter w p).logged es).slots p).refs = (w.slots p).refs + 1 := by
      show ((slotEnter w p).slots p).refs = _
      rw [hslot]
    have keeps : outstanding (slotUnref ((slotEnter w p).logged es) p).log = outstanding w.log := by
      rw [slotUnref_more (by omega)]; exact ho
    cases hm : m.type with
    | methodError e =>
      have hbus : ((slotEnter w p).logged es).busRef p = w.busRef p := by
        show (slotEnter w p).busRef p = _
        rw [World.busRef, hslot]; rfl
      have hclosed := signalInstallHandler_done hm hdone
      obtain ⟨y, he, _, _, hsum⟩ := (hi.logged hes).detached hx
      -- more than the bus's reference is left, so the slot survives its disconnection
      have hmore : 1 < ((((slotEnter w p).logged es).setSlot p y).slots p).refs := by
        cases hf : (w.slots p).floating with
        | false =>
          have hb : w.busRef p = 0 := by simp [World.busRef, hf]
          omega
        | true =>
          have hb : w.busRef p = 1 := by simp [World.busRef, hf, hc]
          have : (w.slots p).refs ≠ 1 := fun h1 => hno ⟨⟨e, hm⟩, hclosed, hf, h1⟩
          omega
      show outstanding (slotUnref (slotDetach _ p) p).log = _
      rw [he, slotUnref_more hmore]
      exact ho
    | methodCall => exact keeps
    | methodReturn => exact keeps
    | signal => exact keeps
    | other => exact keeps
  · rintro w' ⟨es, hes, rfl⟩; exact outstanding_plain hes

theorem Quiet.cancel (h : Inv w) (p : Ptr) :
    ∃ w₁, cfunCancelSlot w p = w₁.note (.cancelled p) ∧ Quiet w w₁ p ∧
      ((w.handles p).slot = some p → (w.slots p).refs ≤ w.busRef p + 1 →
        p ∉ outstanding w₁.log) := by
  cases hs : (w.handles p).slot with
  | none => exact ⟨w, cfunCancelSlot_none hs, Quiet.refl w p, by simp⟩
  | some s =>
    obtain rfl := h.own p s hs
    obtain ⟨y, he, hi, hsum⟩ := h.unfloated hs
    refine ⟨_, cfunCancelSlot_some hs, ?_, fun _ hr => ?_⟩
    · rw [he]
      have hq := Quiet.unfloat w s
      rw [he] at hq
      exact hq.trans (Quiet.release hi s)
    · have h1 : ((w.setSlot s y).slots s).refs ≤ 1 := by
        rw [World.setSlot_self]; omega
      rw [he, releaseHandle_eq (w := w.setSlot s y) hs,
        slotUnref_last (w := (w.setSlot s y).setHandle s _) h1, outstanding_slotFree]
      exact h.repr.nodup.not_mem_erase

/-- The caller may get a handle that was finalized, of a record that was freed. -/
theorem Effect.given (hlt : p < w.nextPtr) (hr : (w.handles p).ref = .callee) :
    Effect w (.returned p) (returnHandle w p) := by
  have ht : ∀ e ∈ w.freedOf .caller [p], e = .freedRecord .caller p := by
    intro e he
    obtain ⟨q, hq, _, rfl⟩ := mem_freedOf.mp he
    rw [List.mem_singleton.mp hq]
  rw [returnHandle]
  cases hf : (w.handles p).finalized with
  | false =>
    have he := Effect.returned (w.freedOf .caller [p]) hlt hr fun e he => Or.inr (ht e he)
    simpa [hf, World.touch, World.logged, World.freedOf] using he
  | true =>
    have he := Effect.returned (.finalizedHandle p :: w.freedOf .caller [p]) hlt hr fun e he => by
      rcases List.mem_cons.mp he with rfl | he
      · exact Or.inl ⟨rfl, hf⟩
      · exact Or.inr (ht e he)
    simpa [hf, World.touch, World.logged, World.note, World.freedOf] using he

/-- A message of no known type is not given to the channel. -/
theorem Inv.matchedEffect (h : Inv w) {m : Message} (hc : w.callable p .Match = true)
    (hs : (processMatch w p m).world? = some w') : Effect w (.matched p m) w' := by
  obtain ⟨_, hconn, hk, _⟩ := World.callable_spec hc
  refine .matched hc ?_ ((h.matched_keeps hk hconn).world hs)
  by_cases hm : m.type = .other
  · obtain ⟨w₁, he, hq⟩ := processMatch_other (w := w) (p := p) hm
    rw [he] at hs
    obtain rfl := Option.some.inj hs
    exact Or.inl hq
  · exact Or.inr ⟨_, (processMatch_gave hm).gave hs⟩

/-- Only a refusal is given to the channel. -/
theorem Inv.installedEffect (h : Inv w) {m : Message} (hc : w.callable p .Match = true)
    (hs : (processInstall w p m).world? = some w') : Effect w (.installed p m) w' := by
  refine .installed hc ?_ fun hno =>
    (h.installed_keeps (World.callable_spec hc).2.1 hno).world hs
  by_cases hm : ∃ error, m.type = .methodError error
  · obtain ⟨error, hm⟩ := hm
    exact Or.inr ⟨_, (processInstall_refused hm).gave hs⟩
  · obtain ⟨w₁, he, hq⟩ := processInstall_accepted (w := w) (p := p) (not_exists.mp hm)
    rw [he] at hs
    obtain rfl := Option.some.inj hs
    exact Or.inl hq

theorem step_effect (h : Inv w) {s : Step} (hs : step w s = some w') : Effect w s w' := by
  cases s with
  | callAsync c rv =>
    simp only [step, Option.ite_none_right_eq_some] at hs
    exact .callAsync hs.1.1 hs.1.2 ((startAsync_started h c .Call rv).world hs.2)
  | matchAsync c rv =>
    simp only [step, Option.ite_none_right_eq_some] at hs
    exact .matchAsync hs.1.1 hs.1.2 ((startAsync_started h c .Match rv).world hs.2)
  | returned p =>
    simp only [step, Option.ite_none_right_eq_some, Option.some.injEq] at hs
    obtain ⟨⟨hlt, hr⟩, rfl⟩ := hs
    exact Effect.given hlt hr
  | reply p m =>
    simp only [step, Option.ite_none_right_eq_some] at hs
    obtain ⟨⟨hc, _, hm⟩, hs⟩ := hs
    obtain ⟨_, _, hk, _⟩ := World.callable_spec hc
    have hg := processReply_gave (w := w) (p := p) hm.2.2.2
    rw [hk] at hg
    exact .reply hc hm hg (hg.gave hs) ((h.reply_out hk hm.type).world hs)
  | matched p m =>
    simp only [step, Option.ite_none_right_eq_some] at hs
    exact h.matchedEffect hs.1 hs.2
  | installed p m =>
    simp only [step, Option.ite_none_right_eq_some] at hs
    exact h.installedEffect hs.1.1 hs.2
  | cancel p =>
    simp only [step, Option.ite_none_right_eq_some, Option.some.injEq] at hs
    obtain ⟨⟨hlt, hr⟩, rfl⟩ := hs
    obtain ⟨w₁, he, hq, ho⟩ := Quiet.cancel h p
    rw [he]
    exact .cancel w₁ hlt hr hq ho
  | dropHandle p =>
    simp only [step, Option.ite_none_right_eq_some, Option.some.injEq] at hs
    obtain ⟨⟨hlt, _⟩, rfl⟩ := hs
    exact .dropHandle hlt
  | dropChan c =>
    simp only [step, Option.some.injEq] at hs
    subst hs
    exact .dropChan
  | closeChan c =>
    simp only [step, Option.ite_none_right_eq_some, Option.some.injEq] at hs
    obtain ⟨_, rfl⟩ := hs
    exact .closeChan
  | gcHandle p =>
    simp only [step, Option.ite_none_right_eq_some, Option.some.injEq] at hs
    obtain ⟨⟨hlt, hr, hf⟩, rfl⟩ := hs
    exact .gcHandle _ hlt hr hf (Quiet.release h p) rfl
  | gcChan c =>
    simp only [step, Option.ite_none_right_eq_some, Option.some.injEq] at hs
    obtain ⟨hr, rfl⟩ := hs
    exact .gcChan hr
  | hup =>
    simp only [step, Option.ite_none_right_eq_some] at hs
    exact .hup hs.1 hs.2
  | err =>
    simp only [step, Option.ite_none_right_eq_some] at hs
    exact .err hs.1 hs.2
  | closeBus => exact .closeBus hs
  | busDrop p =>
    simp only [step, Option.ite_none_right_eq_some, Option.some.injEq] at hs
    obtain ⟨⟨hb, _, hlt⟩, rfl⟩ := hs
    exact .busDrop hlt hb (Quiet.detach w p)

/-- The record a step is about. -/
def Step.subject (w : World) : Step → Option Ptr
  | .callAsync _ _ | .matchAsync _ _ => some w.nextPtr
  | .returned p | .reply p _ | .matched p _ | .installed p _ | .cancel p | .dropHandle p
  | .gcHandle p | .busDrop p => some p
  | .dropChan _ | .closeChan _ | .gcChan _ | .hup | .err | .closeBus => none

def Step.sweeps : Step → Bool
  | .hup | .err | .closeBus => true
  | _ => false

theorem view_note_cancelled (hx : x ≠ p) : (w.note (.cancelled p)).view x = w.view x := by
  have hh : history x (w.note (.cancelled p)).log = history x w.log :=
    List.filter_cons_of_neg (by simp [Event.record, Ne.symm hx])
  simp only [World.view, hh]
  rfl

theorem view_returned (hes : ∀ e ∈ es, e = .finalizedHandle p ∧ (w.handles p).finalized = true ∨
    e = .freedRecord .caller p) (x : Ptr) : (w.logged es).view x = w.view x := by
  refine view_logged (fun e he => ?_) x
  rcases hes e he with ⟨rfl, _⟩ | rfl <;> exact ⟨rfl, rfl⟩

/-- Only the view of the subject changes. -/
theorem Effect.others {s : Step} (he : Effect w s w') (hs : s.sweeps = false)
    (hx : s.subject w ≠ some x) : w'.view x = w.view x := by
  have ne : ∀ {p}, some p ≠ some x → x ≠ p := fun h e => h (by rw [e])
  cases he with
  | callAsync _ _ h => exact h.others x (ne hx)
  | matchAsync _ _ h => exact h.others x (ne hx)
  | returned es _ _ hes => rw [view_setHandle (ne hx)]; exact view_returned hes x
  | reply _ _ _ h _ => exact h.view_other (ne hx)
  | matched _ h _ => exact h.elim (·.view_other (ne hx)) fun ⟨_, h⟩ => h.view_other (ne hx)
  | installed _ h _ => exact h.elim (·.view_other (ne hx)) fun ⟨_, h⟩ => h.view_other (ne hx)
  | cancel w₁ _ _ h _ => rw [view_note_cancelled (ne hx)]; exact h.view_other (ne hx)
  | dropHandle _ => exact view_setHandle (ne hx)
  | gcHandle w₁ _ _ _ h _ => rw [view_setHandle (ne hx)]; exact h.view_other (ne hx)
  | dropChan => rfl
  | closeChan => rfl
  | gcChan _ => rfl
  | busDrop _ _ h => exact h.view_other (ne hx)
  | hup => simp [Step.sweeps] at hs
  | err => simp [Step.sweeps] at hs
  | closeBus => simp [Step.sweeps] at hs

theorem Quiet.nextPtr (h : Quiet w w' p) : w'.nextPtr = w.nextPtr := by
  obtain ⟨es, f, _⟩ := h
  exact f.nextPtr

theorem Gave.nextPtr {src : Source} {t : Tuple} (h : Gave w w' src p t) :
    w'.nextPtr = w.nextPtr := by
  obtain ⟨es₁, es₂, f, _⟩ := h
  exact f.nextPtr

theorem update_closed {f : ChanId → Chan} {d c : ChanId} {ch : Chan}
    (h : ch.closed = (f d).closed) : (Function.update f d ch c).closed = (f c).closed := by
  by_cases hc : c = d
  · subst hc; rw [Function.update_self, h]
  · rw [Function.update_of_ne hc]

/-- No step but the sweeps changes the connection, apart from its queue. -/
theorem Effect.conn {s : Step} (he : Effect w s w') (hs : s.sweeps = false) :
    w'.conn.bus = w.conn.bus ∧ w'.listening = w.listening := by
  have quiet : ∀ w₁ {p}, Quiet w w₁ p → w₁.conn.bus = w.conn.bus ∧ w₁.listening = w.listening :=
    fun _ _ ⟨_, f, _⟩ => ⟨f.bus, by rw [World.listening, f.stream]; rfl⟩
  have gave : ∀ {src p t}, Gave w w' src p t →
      w'.conn.bus = w.conn.bus ∧ w'.listening = w.listening :=
    fun ⟨_, _, f, _⟩ => ⟨f.bus, by rw [World.listening, f.stream]; rfl⟩
  have new : ∀ {c kind rv}, Started w w' c kind rv →
      w'.conn.bus = w.conn.bus ∧ w'.listening = w.listening :=
    fun h => ⟨h.bus, by rw [World.listening, h.stream]; rfl⟩
  cases he with
  | callAsync _ _ h => exact new h
  | matchAsync _ _ h => exact new h
  | reply _ _ _ h _ => exact gave h
  | matched _ h _ => exact h.elim (quiet _) fun ⟨_, h⟩ => gave h
  | installed _ h _ => exact h.elim (quiet _) fun ⟨_, h⟩ => gave h
  | cancel w₁ _ _ h _ => exact quiet w₁ h
  | gcHandle w₁ _ _ _ h _ => exact quiet w₁ h
  | busDrop _ _ h => exact quiet _ h
  | hup => simp [Step.sweeps] at hs
  | err => simp [Step.sweeps] at hs
  | closeBus => simp [Step.sweeps] at hs
  | _ => exact ⟨rfl, rfl⟩

/-- Channels are closed by Janet code only. -/
theorem Effect.closed {s : Step} (he : Effect w s w') (hs : s.sweeps = false)
    (hc : ∀ c, s ≠ .closeChan c) (c : ChanId) : (w'.chans c).closed = (w.chans c).closed := by
  have quiet : ∀ w₁ {p}, Quiet w w₁ p → w₁.chans = w.chans := fun _ _ ⟨_, f, _⟩ => f.chans
  have gave : ∀ {src p t}, Gave w w' src p t → w'.chans = w.chans := fun ⟨_, _, f, _⟩ => f.chans
  have at_c : ∀ w₁ : World, w₁.chans = w.chans → (w₁.chans c).closed = (w.chans c).closed :=
    fun _ h => by rw [h]
  cases he with
  | callAsync _ _ h => exact at_c _ h.chans
  | matchAsync _ _ h => exact at_c _ h.chans
  | returned => rfl
  | reply _ _ _ h _ => exact at_c _ (gave h)
  | matched _ h _ => exact at_c _ (h.elim (quiet _) fun ⟨_, h⟩ => gave h)
  | installed _ h _ => exact at_c _ (h.elim (quiet _) fun ⟨_, h⟩ => gave h)
  | cancel w₁ _ _ h _ => exact at_c w₁ (quiet w₁ h)
  | dropHandle => rfl
  | gcHandle w₁ _ _ _ h _ => exact at_c w₁ (quiet w₁ h)
  | dropChan => exact update_closed rfl
  | closeChan => exact absurd rfl (hc _)
  | gcChan _ => exact update_closed rfl
  | busDrop _ _ h => exact at_c _ (quiet _ h)
  | hup => simp [Step.sweeps] at hs
  | err => simp [Step.sweeps] at hs
  | closeBus => simp [Step.sweeps] at hs

/-- Serials only grow, and the cookie of a slot stays. -/
theorem Effect.serial {s : Step} (he : Effect w s w') (hs : s.sweeps = false) :
    w.serial ≤ w'.serial := by
  have quiet : ∀ w₁ {p}, Quiet w w₁ p → w.serial ≤ w₁.serial :=
    fun _ _ ⟨_, f, _⟩ => Nat.le_of_eq f.serial.symm
  have gave : ∀ {src p t}, Gave w w' src p t → w.serial ≤ w'.serial :=
    fun ⟨_, _, f, _⟩ => Nat.le_of_eq f.serial.symm
  have new : ∀ {c kind rv}, Started w w' c kind rv → w.serial ≤ w'.serial := by
    intro c kind rv h
    rcases h.subject with ⟨_, _, hs⟩ | ⟨_, _, hs⟩ <;> omega
  cases he with
  | callAsync _ _ h => exact new h
  | matchAsync _ _ h => exact new h
  | reply _ _ _ h _ => exact gave h
  | matched _ h _ => exact h.elim (quiet _) fun ⟨_, h⟩ => gave h
  | installed _ h _ => exact h.elim (quiet _) fun ⟨_, h⟩ => gave h
  | cancel w₁ _ _ h _ => exact quiet w₁ h
  | gcHandle w₁ _ _ _ h _ => exact quiet w₁ h
  | busDrop _ _ h => exact quiet _ h
  | hup => simp [Step.sweeps] at hs
  | err => simp [Step.sweeps] at hs
  | closeBus => simp [Step.sweeps] at hs
  | _ => exact Nat.le_refl _

/-- Records are numbered in the order they are made, and only existing ones are subjects. -/
theorem Effect.numbers {s : Step} (he : Effect w s w') (hs : s.sweeps = false) :
    w.nextPtr ≤ w'.nextPtr ∧ ∀ p, s.subject w = some p → p < w'.nextPtr := by
  have same : ∀ {q : Ptr}, w'.nextPtr = w.nextPtr → q < w.nextPtr →
      w.nextPtr ≤ w'.nextPtr ∧ ∀ p, some q = some p → p < w'.nextPtr := by
    intro q h hq
    refine ⟨Nat.le_of_eq h.symm, fun p hp => ?_⟩
    rw [h, ← Option.some.inj hp]; exact hq
  have new : w'.nextPtr = w.nextPtr + 1 →
      w.nextPtr ≤ w'.nextPtr ∧ ∀ p, some w.nextPtr = some p → p < w'.nextPtr := by
    intro h
    refine ⟨by omega, fun p hp => ?_⟩
    rw [h, ← Option.some.inj hp]; exact Nat.lt_succ_self _
  have none : w'.nextPtr = w.nextPtr →
      w.nextPtr ≤ w'.nextPtr ∧ ∀ p : Ptr, Option.none = some p → p < w'.nextPtr :=
    fun h => ⟨Nat.le_of_eq h.symm, by simp⟩
  cases he with
  | callAsync _ _ h => exact new h.nextPtr
  | matchAsync _ _ h => exact new h.nextPtr
  | returned es hlt _ _ => exact same rfl hlt
  | reply hc _ _ h _ => exact same h.nextPtr (World.callable_spec hc).2.2.2
  | matched hc h _ =>
    exact same (h.elim (·.nextPtr) fun ⟨_, h⟩ => h.nextPtr) (World.callable_spec hc).2.2.2
  | installed hc h _ =>
    exact same (h.elim (·.nextPtr) fun ⟨_, h⟩ => h.nextPtr) (World.callable_spec hc).2.2.2
  | cancel w₁ hlt _ h _ => exact same h.nextPtr hlt
  | dropHandle hlt => exact same rfl hlt
  | gcHandle w₁ hlt _ _ h _ => exact same h.nextPtr hlt
  | dropChan => exact none rfl
  | closeChan => exact none rfl
  | gcChan _ => exact none rfl
  | busDrop hlt _ h => exact same h.nextPtr hlt
  | hup => simp [Step.sweeps] at hs
  | err => simp [Step.sweeps] at hs
  | closeBus => simp [Step.sweeps] at hs

/-! ### Sweeps -/

/-- One turn of the loop in `closeall_pending` that came back. -/
structure Visited (tuple : Tuple) (w w' : World) (p : Ptr) : Prop where
  opened : (w.chans (w.heap p).chan).closed = false
  frame : ∃ es, Frame w w' p (es ++ w.closeallLog tuple p) ∧ ∀ e ∈ es, e.quiet p = true
  released : (w'.handles p).slot = none

theorem releaseHandle_slot (w : World) (p : Ptr) : ((releaseHandle w p).handles p).slot = none := by
  rw [releaseHandle, World.setHandle_self]

theorem closeallVisit_ends (h : Inv w) (tuple : Tuple) (p : Ptr) :
    (closeallVisit tuple w p).Ends (Visited tuple w · p) fun w' =>
      (w.chans (w.heap p).chan).closed = true ∧
        w' = w.logged (w.chanFault p ++ w.freedOf .closeall [p]) := by
  cases hc : (w.chans (w.heap p).chan).closed with
  | true => rw [closeallVisit_closed hc]; exact ⟨rfl, rfl⟩
  | false =>
    rw [closeallVisit_open hc]
    have hi := h.logged (closeallLog_plain w tuple p)
    obtain ⟨es, f, hes⟩ := (Quiet.release hi p).trans (Quiet.touch _ p .closeall [p])
    exact ⟨hc, ⟨es, (Frame.logged w p _).trans f, hes⟩, releaseHandle_slot _ p⟩

theorem closeallLog_only (w : World) (tuple : Tuple) (p : Ptr) :
    ∀ e ∈ w.closeallLog tuple p, e.only p = true := by
  intro e he
  rcases List.mem_append.mp he with he | he
  · split at he
    · obtain rfl := List.mem_singleton.mp he; rfl
    · simp at he
  rcases List.mem_cons.mp he with rfl | he
  · simp [Event.only]
  rcases List.mem_append.mp he with he | he
  · exact chanFault_only w p p e he
  · exact only_of_quiet (freedOf_quiet w _ _ p e he)

theorem history_freedOf (w : World) (site : Site) (ps : List Ptr) (x : Ptr) :
    history x (w.freedOf site ps) = [] := by
  rw [history, List.filter_eq_nil_iff]
  intro e he
  obtain ⟨q, _, _, rfl⟩ := mem_freedOf.mp he
  simp [Event.record]

theorem history_closeallLog (w : World) (tuple : Tuple) (p : Ptr) :
    history p (w.closeallLog tuple p) = [.wrote .closeall p (w.heap p).chan tuple] := by
  have h₁ : history p (if (w.handles p).finalized then [Event.finalizedHandle p] else []) = [] := by
    split <;> simp [history, Event.record]
  rw [World.closeallLog, history_append, h₁, List.nil_append, history, List.filter_cons_of_pos
    (by simp [Event.record]), ← history, history_append, history_chanFault, history_freedOf]
  rfl

theorem Visited.view_other {tuple : Tuple} (h : Visited tuple w w' p) (hx : x ≠ p) :
    w'.view x = w.view x := by
  obtain ⟨es, f, hes⟩ := h.frame
  refine f.view (fun e he => ?_) hx
  rcases List.mem_append.mp he with he | he
  · exact only_of_quiet (hes e he)
  · exact closeallLog_only w tuple p e he

theorem Visited.view {tuple : Tuple} (h : Visited tuple w w' p) :
    (w.view p).Given (w'.view p) [.wrote .closeall p (w.heap p).chan tuple] := by
  obtain ⟨es, f, hes⟩ := h.frame
  refine ⟨⟨[], history p es, ?_, ?_⟩, f.chan p, f.kind p, f.cookie, f.connected, f.awaiting,
    f.finalized, f.ref, ?_⟩
  · simp only [World.view, f.log, history_append, history_closeallLog, List.nil_append,
      List.append_assoc]
  · rw [List.nil_append]; exact history_quiet hes
  · intro ho
    simp only [World.view, decide_eq_true_eq, f.log, List.append_assoc] at ho ⊢
    have h₁ := (outstanding_quiet hes).2 ho
    rwa [outstanding_plain (closeallLog_plain w tuple p)] at h₁

/-- A turn that met a closed channel leaves every view as it was. -/
theorem view_refused (w : World) (p x : Ptr) :
    (w.logged (w.chanFault p ++ w.freedOf .closeall [p])).view x = w.view x := by
  refine view_logged (fun e he => ⟨?_, ?_⟩) x
  · exact plain_append (freedOf_plain closeall_ne_dequeue w [p]) (chanFault_plain w p) e he
  · rcases List.mem_append.mp he with he | he
    · rw [World.chanFault] at he
      split at he
      · obtain rfl := List.mem_singleton.mp he; rfl
      · simp at he
    · obtain ⟨q, _, _, rfl⟩ := mem_freedOf.mp he
      rfl

/-- The state after a sweep: as the loop left it, with no record outstanding. -/
structure SweptFrom (w w' : World) : Prop where
  views : ∀ x, w'.view x = { w.view x with outstanding := false }
  empty : outstanding w'.log = []
  queue : w'.conn.queue = none
  chans : w'.chans = w.chans
  nextPtr : w'.nextPtr = w.nextPtr
  serial : w'.serial = w.serial
  events : w'.log = w.log ∨ w'.log = .swept :: w.log

theorem SweptFrom.log (h : SweptFrom w w') : ∀ e ∈ w'.log, e ∈ w.log ∨ e = .swept := by
  intro e he
  rcases h.events with hlog | hlog
  · exact Or.inl (hlog ▸ he)
  · exact (List.mem_cons.mp (hlog ▸ he)).symm

theorem view_of_empty (ho : outstanding w.log = []) (x : Ptr) :
    w.view x = { w.view x with outstanding := false } := by
  simp [World.view, ho]

section sweep
variable {J : Tuple → List Ptr → World → Prop} {R : World → Prop}
  (hvisit : ∀ tuple p l w, Inv w → (∃ l₁, outstanding w.log = l₁ ++ p :: l) → J tuple (p :: l) w →
    (closeallVisit tuple w p).Ends (J tuple l) R)
include hvisit

theorem closeallPending_swept {tuple : Tuple} (h : Inv w) (hJ : J tuple (outstanding w.log) w) :
    (closeallPending w tuple).Ends
      (fun w' => Inv w' ∧ ∃ w₁, J tuple [] w₁ ∧ SweptFrom w₁ w' ∧ w'.conn.bus_stream =
        w₁.conn.bus_stream ∧ w'.conn.bus = w₁.conn.bus) R := by
  have he := closeallPending_ends tuple (hvisit tuple) h hJ
  cases hc : closeallPending w tuple with
  | diverged => rw [hc] at he; exact he
  | raised w' e => rw [hc] at he; exact he.2
  | done w' =>
    rw [hc] at he
    obtain ⟨hi, hcase⟩ := he
    refine ⟨hi, ?_⟩
    rcases hcase with ⟨rfl, hq⟩ | ⟨w₁, _, hJ', rfl⟩
    · have ho : outstanding w'.log = [] := by
        by_contra hne; exact h.repr.ne_nil_iff.mp hne hq
      rw [ho] at hJ
      exact ⟨w', hJ, ⟨view_of_empty ho, ho, hq, rfl, rfl, rfl, Or.inl rfl⟩, rfl, rfl⟩
    · exact ⟨w₁, hJ', ⟨view_swept w₁, rfl, rfl, rfl, rfl, rfl, Or.inr rfl⟩, rfl, rfl⟩

/-- The tuple a bus event makes `closeall_pending` send. -/
def AsyncEvent.tuple : AsyncEvent → Tuple
  | .hup | .err => .error "D-Bus connection error"
  | .close => .close "D-Bus connection closed"

theorem busCallback_swept (ev : AsyncEvent) (h : Inv w) (hJ : J ev.tuple (outstanding w.log) w) :
    (busCallback w ev).Ends
      (fun w' => ∃ w₁, J ev.tuple [] w₁ ∧ SweptFrom w₁ w' ∧ w'.conn.bus = w₁.conn.bus) R := by
  have hend : ((closeallPending w ev.tuple).bind fun w => .done w.endListener).Ends
      (fun w' => ∃ w₁, J ev.tuple [] w₁ ∧ SweptFrom w₁ w' ∧ w'.conn.bus = w₁.conn.bus) R := by
    refine (closeallPending_swept hvisit h hJ).bind ?_
    rintro w' _ ⟨_, w₁, hJ', hs, _, hb⟩
    exact ⟨w₁, hJ', ⟨hs.views, hs.empty, hs.queue, hs.chans, hs.nextPtr, hs.serial, hs.events⟩, hb⟩
  cases ev <;> exact hend

/-- `close-bus` sweeps if the listener is still attached, and only then. -/
theorem cfunCloseBus_swept (h : Inv w) (hJ : J (AsyncEvent.tuple .close) (outstanding w.log) w) :
    (cfunCloseBus w).Ends
      (fun w' => w'.conn.bus = false ∧ w'.conn.bus_stream = none ∧ w'.conn.timer = none ∧
        if w.listening then ∃ w₁, J (AsyncEvent.tuple .close) [] w₁ ∧ SweptFrom w₁ w'
        else w' = { w with conn := w'.conn } ∧ w'.conn.queue = w.conn.queue) R := by
  rw [cfunCloseBus, closeBusStream]
  cases hst : w.conn.bus_stream with
  | none =>
    have hl : w.listening = false := by rw [World.listening, hst]
    simp only [Outcome.bind, hl, Bool.false_eq_true, if_false]
    exact ⟨rfl, by simpa using hst, rfl, rfl, rfl⟩
  | some st =>
    have hl : w.listening = st.listening := by rw [World.listening, hst]
    cases hli : st.listening with
    | false =>
      simp only [Outcome.bind, hl, hli, Bool.false_eq_true, if_false]
      exact ⟨rfl, rfl, rfl, rfl, rfl⟩
    | true =>
      simp only [hl, hli, if_true]
      have hb := busCallback_swept hvisit .close h hJ
      refine Outcome.Ends.bind (hb.bind fun w' _ hw' => ?_) fun w' _ hw' => hw'
      obtain ⟨w₁, hJ', hs, hbus⟩ := hw'
      exact ⟨rfl, rfl, rfl, w₁, hJ',
        ⟨hs.views, hs.empty, hs.queue, hs.chans, hs.nextPtr, hs.serial, hs.events⟩⟩

end sweep

/-- Without a listener `close-bus` only clears the connection. -/
theorem cfunCloseBus_deaf (hl : w.listening = false) (hw : (cfunCloseBus w).world? = some w') :
    w'.conn.bus_stream = none ∧ w'.conn.bus = false ∧ w' = { w with conn := w'.conn } := by
  rw [cfunCloseBus, closeBusStream] at hw
  cases hst : w.conn.bus_stream with
  | none =>
    simp only [hst, Outcome.bind, Outcome.world?, Option.some.injEq] at hw
    subst hw
    exact ⟨rfl, rfl, rfl⟩
  | some st =>
    have hli : st.listening = false := by rw [World.listening, hst] at hl; exact hl
    simp only [hst, hli, Bool.false_eq_true, if_false, Outcome.bind, Outcome.world?,
      Option.some.injEq] at hw
    subst hw
    exact ⟨rfl, rfl, rfl⟩

/-- Between two turns of the loop: what was visited is logged, the rest is as it was. -/
def SameNumbers (w w' : World) : Prop :=
  w'.nextPtr = w.nextPtr ∧ ∀ x, w.nextPtr ≤ x → history x w'.log = history x w.log

theorem view_hist (h : w'.view x = w.view x) : history x w'.log = history x w.log :=
  congrArg View.hist h

theorem closeallVisit_numbers (tuple : Tuple) (p : Ptr) (l : List Ptr) (w : World) (h : Inv w)
    (hl : ∃ l₁, outstanding w.log = l₁ ++ p :: l) (h₀ : SameNumbers w₁ w) :
    (closeallVisit tuple w p).Ends (SameNumbers w₁) (SameNumbers w₁) := by
  obtain ⟨l₁, ho⟩ := hl
  have hp : p < w₁.nextPtr := h₀.1 ▸ (h.live p (by rw [ho]; simp)).1
  have hv := closeallVisit_ends h tuple p
  cases hc : closeallVisit tuple w p with
  | diverged => rw [hc] at hv; exact hv
  | done w' =>
    rw [hc] at hv
    obtain ⟨es, f, _⟩ := hv.frame
    refine ⟨f.nextPtr.trans h₀.1, fun x hx => ?_⟩
    have hne : x ≠ p := Nat.ne_of_gt (Nat.lt_of_lt_of_le hp hx)
    rw [view_hist (hv.view_other hne), h₀.2 x hx]
  | raised w' e =>
    rw [hc] at hv
    obtain ⟨_, rfl⟩ := hv
    exact ⟨h₀.1, fun x hx => by rw [view_hist (view_refused w p x), h₀.2 x hx]⟩

theorem sweep_numbers {s : Step} (h : Inv w) (hs : s.sweeps = true) (he : Effect w s w') :
    SameNumbers w w' := by
  have hvisit : ∀ (tuple : Tuple) p l w₂, Inv w₂ → (∃ l₁, outstanding w₂.log = l₁ ++ p :: l) →
      SameNumbers w w₂ → (closeallVisit tuple w₂ p).Ends (SameNumbers w) (SameNumbers w) :=
    fun tuple p l w₂ hi hl h₀ => closeallVisit_numbers tuple p l w₂ hi hl h₀
  have h₀ : SameNumbers w w := ⟨rfl, fun _ _ => rfl⟩
  have swept : ∀ {w₂ w₃}, SameNumbers w w₂ → SweptFrom w₂ w₃ → SameNumbers w w₃ := by
    intro w₂ w₃ h₂ h₃
    refine ⟨h₃.nextPtr.trans h₂.1, fun x hx => ?_⟩
    have := congrArg View.hist (h₃.views x)
    exact this.trans (h₂.2 x hx)
  have done : ∀ {ev : AsyncEvent}, (busCallback w ev).world? = some w' → SameNumbers w w' := by
    intro ev hw
    refine Outcome.All.world (P := SameNumbers w) ?_ hw
    have hb := busCallback_swept (J := fun _ _ => SameNumbers w) hvisit ev h h₀
    cases hc : busCallback w ev with
    | diverged => rw [hc] at hb; exact hb
    | raised w₂ e => rw [hc] at hb; exact hb
    | done w₂ => rw [hc] at hb; obtain ⟨w₃, h₂, h₃, _⟩ := hb; exact swept h₂ h₃
  cases he with
  | hup _ hw => exact done hw
  | err _ hw => exact done hw
  | closeBus hw =>
    refine Outcome.All.world (P := SameNumbers w) ?_ hw
    have hb := cfunCloseBus_swept (J := fun _ _ => SameNumbers w) hvisit h h₀
    cases hc : cfunCloseBus w with
    | diverged => rw [hc] at hb; exact hb
    | raised w₂ e => rw [hc] at hb; exact hb
    | done w₂ =>
      rw [hc] at hb
      obtain ⟨_, _, _, hb⟩ := hb
      split at hb
      · obtain ⟨w₃, h₂, h₃⟩ := hb; exact swept h₂ h₃
      · rw [hb.1]; exact h₀
  | _ => simp [Step.sweeps] at hs

/-! ### Unused numbers -/

/-- The queue invariant, and nothing has been logged about records that do not exist yet. -/
structure Sound (w : World) : Prop where
  inv : Inv w
  fresh : ∀ x, w.nextPtr ≤ x → history x w.log = []

theorem Sound.init : Sound initial := ⟨Inv.init, fun _ _ => rfl⟩

theorem Sound.step {s : Step} (h : Sound w) (hok : StepOk w s) (hs : step w s = some w') :
    Sound w' := by
  have he := step_effect h.inv hs
  refine ⟨h.inv.step hok hs, fun x hx => ?_⟩
  cases hsw : s.sweeps with
  | true =>
    obtain ⟨hn, hh⟩ := sweep_numbers h.inv hsw he
    have hx' : w.nextPtr ≤ x := hn ▸ hx
    rw [hh x hx', h.fresh x hx']
  | false =>
    obtain ⟨hle, hsub⟩ := he.numbers hsw
    have hne : s.subject w ≠ some x := fun h => absurd (hsub x h) (Nat.not_lt.mpr hx)
    rw [view_hist (he.others hsw hne), h.fresh x (Nat.le_trans hle hx)]

end JanetSdbus.Async
