import JanetSdbus.Async.Effect

/-! Records only age.

    A record keeps its channel and its kind. Once it has left the queue it does not come back, once
    its slot has left the bus it does not come back either, and its history only grows. A call that
    the handler has answered has done both (`Settled`). `step_aged` says so for every step at once. -/

namespace JanetSdbus.Async
open Schemes.LinkedList Schemes.Run

variable {w w' w₁ w₂ : World} {p x : Ptr} {es : List Event}

/-- The record is out of the queue and off the bus. -/
def View.gone (v : View) : Prop := v.outstanding = false ∧ v.slot.connected = false

/-- How the view of a record may change. Only a record in the queue or on the bus is written to. -/
structure Aged (p : Ptr) (v v' : View) : Prop where
  chan : v'.chan = v.chan
  kind : v'.kind = v.kind
  cookie : v'.slot.cookie = v.slot.cookie
  outstanding : v'.outstanding = true → v.outstanding = true
  connected : v'.slot.connected = true → v.slot.connected = true
  mono : ∀ e ∈ v.hist, e ∈ v'.hist
  queued : v'.hist.count (.queued p) = v.hist.count (.queued p)
  written : ∀ src c t, .wrote src p c t ∈ v'.hist → .wrote src p c t ∈ v.hist ∨ ¬ v.gone
  handled : v.kind = .Call → ∀ c t, .wrote .handler p c t ∈ v'.hist →
    .wrote .handler p c t ∈ v.hist ∨ v'.gone

theorem Aged.refl (p : Ptr) (v : View) : Aged p v v :=
  ⟨rfl, rfl, rfl, id, id, fun _ h => h, rfl, fun _ _ _ h => .inl h, fun _ _ _ h => .inl h⟩

theorem View.gone.aged {v v' : View} (h : v.gone) (ha : Aged p v v') : v'.gone := by
  constructor
  · cases ho : v'.outstanding with
    | false => rfl
    | true => exact absurd ((ha.outstanding ho).symm.trans h.1) (by simp)
  · cases hc : v'.slot.connected with
    | false => rfl
    | true => exact absurd ((ha.connected hc).symm.trans h.2) (by simp)

theorem Aged.trans {v v₁ v₂ : View} (h₁ : Aged p v v₁) (h₂ : Aged p v₁ v₂) : Aged p v v₂ where
  chan := h₂.chan.trans h₁.chan
  kind := h₂.kind.trans h₁.kind
  cookie := h₂.cookie.trans h₁.cookie
  outstanding h := h₁.outstanding (h₂.outstanding h)
  connected h := h₁.connected (h₂.connected h)
  mono e he := h₂.mono e (h₁.mono e he)
  queued := h₂.queued.trans h₁.queued
  written src c t ht := by
    rcases h₂.written src c t ht with h | h
    · exact h₁.written src c t h
    · exact .inr fun hg => h (hg.aged h₁)
  handled hk c t ht := by
    rcases h₂.handled (h₁.kind.trans hk) c t ht with h | h
    · exact (h₁.handled hk c t h).imp id fun hg => hg.aged h₂
    · exact .inr h

/-- What an operation on a record does that says nothing to its channel, or says it while the record
    is in the queue or on the bus. -/
theorem Aged.given {v v' : View} {wrote : List Event} (hg : v.Given v' wrote)
    (hlive : ∀ e ∈ wrote, (∃ src c t, e = .wrote src p c t) ∧ ¬ v.gone)
    (hw : v.kind = .Call → ∀ c t, .wrote .handler p c t ∈ wrote → v'.gone) : Aged p v v' where
  chan := hg.chan
  kind := hg.kind
  cookie := hg.cookie
  outstanding := hg.outstanding
  connected := hg.connected
  mono := hg.mono
  queued := by
    obtain ⟨es₁, es₂, hhist, hes⟩ := hg.hist
    have hnone : ∀ es ⊆ es₁ ++ es₂, es.count (.queued p) = 0 := fun es hsub =>
      List.count_eq_zero.mpr fun hmem => by
        rcases hes _ (hsub hmem) with ⟨q, h⟩ | ⟨q, h⟩ <;> exact absurd h (by simp)
    have hwrote : wrote.count (.queued p) = 0 := List.count_eq_zero.mpr fun hmem => by
      obtain ⟨⟨_, _, _, h⟩, _⟩ := hlive _ hmem
      exact absurd h (by simp)
    rw [hhist, List.count_append, List.count_append, List.count_append, hwrote,
      hnone es₁ (List.subset_append_left _ _), hnone es₂ (List.subset_append_right _ _)]
    omega
  written src c t ht := by
    rcases hg.mem ht with h | h | ⟨q, h⟩ | ⟨q, h⟩
    · exact .inl h
    · exact .inr (hlive _ h).2
    · exact absurd h (by simp)
    · exact absurd h (by simp)
  handled hk c t ht := by
    rcases hg.mem ht with h | h | ⟨q, h⟩ | ⟨q, h⟩
    · exact .inl h
    · exact .inr (hw hk c t h)
    · exact absurd h (by simp)
    · exact absurd h (by simp)

theorem Aged.setHandle {v : View} {h : Handle} : Aged p v { v with handle := h } :=
  ⟨rfl, rfl, rfl, id, id, fun _ h => h, rfl, fun _ _ _ h => .inl h, fun _ _ _ h => .inl h⟩

/-! ### The reply -/

theorem slotDetach_connected (w : World) (s : Ptr) : ((slotDetach w s).slots s).connected = false := by
  rw [slotDetach]
  split
  · have hd : ((slotDisconnect w s).slots s).connected = false := by
      simp [slotDisconnect, World.setSlot]
    simp only
    split
    · obtain ⟨_, f, _⟩ := Quiet.unref (slotDisconnect w s) s
      cases hc : ((slotUnref (slotDisconnect w s) s).slots s).connected with
      | false => rfl
      | true => rw [f.connected hc] at hd; exact absurd hd (by simp)
    · exact hd
  · next h => simpa using h

/-- After a reply that went through the slot is off the bus. -/
theorem processReply_disconnected {m : Message} (h : processReply w p m = .done w') :
    (w'.slots p).connected = false := by
  rw [processReply, Outcome.dispatched_done] at h
  cases hm : messageHandler (slotEnter w p) p m with
  | done w₁ =>
    rw [hm] at h
    simp only [Outcome.bind, Outcome.done.injEq] at h
    subst h
    obtain ⟨_, f, _⟩ := Quiet.unref (slotDetach w₁ p) p
    have hd := slotDetach_connected w₁ p
    cases hc : ((slotUnref (slotDetach w₁ p) p).slots p).connected with
    | false => rfl
    | true => rw [f.connected hc] at hd; exact absurd hd (by simp)
  | raised w₁ e => rw [hm] at h; simp [Outcome.bind] at h
  | diverged => rw [hm] at h; simp [Outcome.bind] at h

theorem wroteIf_mem {src : Source} {t : Tuple} {e : Event} (h : e ∈ w.wroteIf src p t) :
    (w.chans (w.heap p).chan).closed = false ∧ e = .wrote src p (w.heap p).chan t := by
  rw [World.wroteIf] at h
  split at h
  · exact absurd h List.not_mem_nil
  · next hc => exact ⟨by simpa using hc, List.mem_singleton.mp h⟩

/-! ### One step -/

theorem Quiet.aged (h : Quiet w w' p) : Aged p (w.view p) (w'.view p) :=
  Aged.given h.view (fun _ h => absurd h List.not_mem_nil) fun _ _ _ h => absurd h List.not_mem_nil

/-- A callback that gives a tuple to the channel of a record on the bus. -/
theorem Gave.aged {src : Source} {t : Tuple} (h : Gave w w' src p t) (hconn : (w.slots p).connected = true)
    (hw : (w.heap p).kind = .Call → w.wroteIf src p t ≠ [] → (w'.view p).gone) :
    Aged p (w.view p) (w'.view p) := by
  refine Aged.given h.view (fun e he => ⟨⟨src, _, t, (wroteIf_mem he).2⟩, fun hg => ?_⟩)
    fun hk _ _ hmem => hw hk (List.ne_nil_of_mem hmem)
  exact absurd (hconn.symm.trans hg.2) (by simp)

theorem Effect.aged {s : Step} (hs : step w s = some w') (he : Effect w s w')
    (hsw : s.sweeps = false) (hx : x < w.nextPtr) : Aged x (w.view x) (w'.view x) := by
  by_cases hsub : s.subject w = some x
  swap
  · rw [he.others hsw hsub]; exact Aged.refl x _
  cases he with
  | callAsync => exact absurd (Option.some.inj hsub) (Nat.ne_of_gt hx)
  | matchAsync => exact absurd (Option.some.inj hsub) (Nat.ne_of_gt hx)
  | returned es hlt _ hes =>
    obtain rfl := Option.some.inj hsub
    rw [view_setHandle_self, view_returned hes]
    exact Aged.setHandle
  | @reply p m _ hc hm hends hg hout =>
    obtain rfl : p = x := Option.some.inj hsub
    refine hg.aged (World.callable_spec hc).2.1 fun _ hne => ?_
    obtain ⟨e, he⟩ := List.exists_mem_of_ne_nil _ hne
    obtain ⟨hopen, _⟩ := wroteIf_mem he
    simp only [step, Option.ite_none_right_eq_some] at hs
    cases hr : processReply w p m with
    | diverged => rw [hr] at hs; exact absurd hs.2 (by simp [Outcome.world?])
    | raised w₁ e =>
      rw [hr] at hends
      exact absurd hends.1 (by simp [hopen])
    | done w₁ =>
      rw [hr] at hs
      obtain rfl := Option.some.inj hs.2
      exact ⟨decide_eq_false hout, processReply_disconnected hr⟩
  | matched hc hcase _ =>
    obtain rfl := Option.some.inj hsub
    obtain ⟨_, hconn, hk, _⟩ := World.callable_spec hc
    rcases hcase with hq | ⟨t, hg⟩
    · exact hq.aged
    · exact hg.aged hconn fun hkind => absurd (hk.symm.trans hkind) (by simp)
  | installed hc hcase _ =>
    obtain rfl := Option.some.inj hsub
    obtain ⟨_, hconn, hk, _⟩ := World.callable_spec hc
    rcases hcase with hq | ⟨t, hg⟩
    · exact hq.aged
    · exact hg.aged hconn fun hkind => absurd (hk.symm.trans hkind) (by simp)
  | @cancel p w₁ hlt _ hq _ =>
    obtain rfl : p = x := Option.some.inj hsub
    refine hq.aged.trans ?_
    have hhist : ∀ e ∈ history p w₁.log, e ∈ history p (w₁.note (.cancelled p)).log := by
      intro e he
      obtain ⟨hmem, hrec⟩ := List.mem_filter.mp he
      exact List.mem_filter.mpr ⟨List.mem_cons_of_mem _ hmem, hrec⟩
    have hback : ∀ src c t, .wrote src p c t ∈ history p (w₁.note (.cancelled p)).log →
        .wrote src p c t ∈ history p w₁.log := by
      intro src c t ht
      obtain ⟨hmem, hrec⟩ := List.mem_filter.mp ht
      rcases List.mem_cons.mp hmem with h | h
      · exact absurd h (by simp)
      · exact List.mem_filter.mpr ⟨h, hrec⟩
    have hcount : (history p (w₁.note (.cancelled p)).log).count (.queued p) =
        (history p w₁.log).count (.queued p) := by
      rw [World.note, history, List.filter_cons_of_pos (by simp [Event.record]), List.count_cons_of_ne (by simp)]
      rfl
    exact ⟨rfl, rfl, rfl, id, id, hhist, hcount, fun src c t ht => .inl (hback src c t ht),
      fun _ c t ht => .inl (hback .handler c t ht)⟩
  | dropHandle =>
    obtain rfl := Option.some.inj hsub
    rw [view_setHandle_self]
    exact Aged.setHandle
  | gcHandle w₁ _ _ _ hq _ =>
    obtain rfl := Option.some.inj hsub
    rw [view_setHandle_self]
    exact hq.aged.trans Aged.setHandle
  | dropChan => exact Aged.refl x _
  | closeChan => exact Aged.refl x _
  | gcChan _ => exact Aged.refl x _
  | busDrop _ _ hq =>
    obtain rfl := Option.some.inj hsub
    exact hq.aged
  | hup => simp [Step.sweeps] at hsw
  | err => simp [Step.sweeps] at hsw
  | closeBus => simp [Step.sweeps] at hsw

/-! ### Sweeps -/

theorem closeallVisit_aged (w₀ : World) (tuple : Tuple) (p : Ptr) (l : List Ptr) (w : World) (h : Inv w)
    (hl : ∃ l₁, outstanding w.log = l₁ ++ p :: l) (h₀ : ∀ x, Aged x (w₀.view x) (w.view x)) :
    (closeallVisit tuple w p).Ends (fun w' => ∀ x, Aged x (w₀.view x) (w'.view x))
      fun w' => ∀ x, Aged x (w₀.view x) (w'.view x) := by
  have hv := closeallVisit_ends h tuple p
  cases hc : closeallVisit tuple w p with
  | diverged => rw [hc] at hv; exact hv
  | done w' =>
    rw [hc] at hv
    intro x
    refine (h₀ x).trans ?_
    by_cases hx : x = p
    · subst hx
      obtain ⟨l₁, ho⟩ := hl
      have hout : (w.view x).outstanding = true := decide_eq_true (by rw [ho]; simp)
      refine Aged.given hv.view (fun e he => ⟨⟨_, _, _, List.mem_singleton.mp he⟩, fun hg => ?_⟩)
        fun _ c t ht => absurd (List.mem_singleton.mp ht) (by simp)
      exact absurd (hout.symm.trans hg.1) (by simp)
    · rw [hv.view_other hx]; exact Aged.refl x _
  | raised w' e =>
    rw [hc] at hv
    obtain ⟨_, rfl⟩ := hv
    intro x
    rw [view_refused w p x]
    exact h₀ x

theorem SweptFrom.aged (h : SweptFrom w₁ w') (x : Ptr) : Aged x (w₁.view x) (w'.view x) := by
  rw [h.views x]
  exact ⟨rfl, rfl, rfl, by simp, id, fun _ h => h, rfl, fun _ _ _ h => .inl h, fun _ _ _ h => .inl h⟩

theorem sweep_aged {s : Step} (h : Inv w) (hs : s.sweeps = true) (he : Effect w s w') (x : Ptr) :
    Aged x (w.view x) (w'.view x) := by
  have h₀ : ∀ x, Aged x (w.view x) (w.view x) := fun x => Aged.refl x _
  have done : ∀ {ev : AsyncEvent}, (busCallback w ev).world? = some w' →
      ∀ x, Aged x (w.view x) (w'.view x) := by
    intro ev hw
    refine Outcome.All.world (P := fun w' => ∀ x, Aged x (w.view x) (w'.view x)) ?_ hw
    have hb := busCallback_swept (J := fun _ _ w' => ∀ x, Aged x (w.view x) (w'.view x))
      (closeallVisit_aged w) ev h h₀
    cases hc : busCallback w ev with
    | diverged => rw [hc] at hb; exact hb
    | raised w₂ e => rw [hc] at hb; exact hb
    | done w₂ =>
      rw [hc] at hb
      obtain ⟨w₃, h₂, h₃, _⟩ := hb
      exact fun x => (h₂ x).trans (h₃.aged x)
  cases he with
  | hup _ hw => exact done hw x
  | err _ hw => exact done hw x
  | closeBus hw =>
    refine Outcome.All.world (P := fun w' => ∀ x, Aged x (w.view x) (w'.view x)) ?_ hw x
    have hb := cfunCloseBus_swept (J := fun _ _ w' => ∀ x, Aged x (w.view x) (w'.view x))
      (closeallVisit_aged w) h h₀
    cases hc : cfunCloseBus w with
    | diverged => rw [hc] at hb; exact hb
    | raised w₂ e => rw [hc] at hb; exact hb
    | done w₂ =>
      rw [hc] at hb
      obtain ⟨_, _, _, hb⟩ := hb
      split at hb
      · obtain ⟨w₃, h₂, h₃⟩ := hb
        exact fun x => (h₂ x).trans (h₃.aged x)
      · intro x
        rw [hb.1]
        exact h₀ x
  | _ => simp [Step.sweeps] at hs

/-- Whatever happens, the records that exist only age, and a new one is the next number. -/
theorem step_aged {s : Step} (h : Sound w) (hs : step w s = some w') :
    (∀ x, x < w.nextPtr → Aged x (w.view x) (w'.view x)) ∧ w.nextPtr ≤ w'.nextPtr := by
  have he := step_effect h.inv hs
  cases hsw : s.sweeps with
  | true => exact ⟨fun x _ => sweep_aged h.inv hsw he x, Nat.le_of_eq (sweep_numbers h.inv hsw he).1.symm⟩
  | false => exact ⟨fun x hx => he.aged hs hsw hx, (he.numbers hsw).1⟩

/-- And so along every run. -/
theorem run_aged {steps : List Step} (h : Sound w) (hok : Meets step StepOk w steps)
    (hs : exec step w steps = some w') (hx : x < w.nextPtr) :
    Sound w' ∧ x < w'.nextPtr ∧ Aged x (w.view x) (w'.view x) := by
  refine hok.invariant (I := fun w₁ => Sound w₁ ∧ x < w₁.nextPtr ∧ Aged x (w.view x) (w₁.view x)) ?_
    ⟨h, hx, Aged.refl x _⟩ hs
  rintro w₁ s w₂ ⟨hsound, hlt, haged⟩ hok hs
  obtain ⟨hstep, hle⟩ := step_aged hsound hs
  exact ⟨hsound.step hok hs, Nat.lt_of_lt_of_le hlt hle, haged.trans (hstep x hlt)⟩

/-! ### Answered calls -/

/-- Every call that the handler has answered has left the queue and the bus. -/
def Settled (w : World) : Prop := ∀ x, x < w.nextPtr → (w.heap x).kind = .Call →
  ∀ c t, .wrote .handler x c t ∈ w.log → (w.view x).gone

theorem Settled.init : Settled initial := fun _ _ _ _ _ h => absurd h List.not_mem_nil

/-- The record that a step makes, and its channel. -/
def Step.makes : Step → Option (ChanId × Kind)
  | .callAsync c _ => some (c, .Call)
  | .matchAsync c _ => some (c, .Match)
  | _ => none

/-- What is new about the next number. -/
theorem step_new {s : Step} (h : Sound w) (hs : step w s = some w') (hlo : w.nextPtr ≤ x)
    (hhi : x < w'.nextPtr) : x = w.nextPtr ∧ ∃ c kind, s.makes = some (c, kind) ∧ (w'.view x).chan = c ∧
      (w'.view x).kind = kind ∧ ∀ e ∈ (w'.view x).hist, e = .queued x := by
  have he := step_effect h.inv hs
  have hnil : history w.nextPtr w.log = [] := h.fresh _ (Nat.le_refl _)
  have started : ∀ {c kind rv}, Started w w' c kind rv → x = w.nextPtr ∧ (w'.view x).chan = c ∧
      (w'.view x).kind = kind ∧ ∀ e ∈ (w'.view x).hist, e = .queued x := by
    intro c kind rv hst
    have hx : x = w.nextPtr := by rw [hst.nextPtr] at hhi; exact Nat.le_antisymm (Nat.le_of_lt_succ hhi) hlo
    subst hx
    rcases hst.subject with ⟨_, hv, _⟩ | ⟨_, hv, _⟩
    · rw [hv]
      refine ⟨rfl, rfl, rfl, fun e he => ?_⟩
      rw [startView, hnil] at he
      exact List.mem_singleton.mp he
    · rw [hv]
      refine ⟨rfl, rfl, rfl, fun e he => ?_⟩
      rw [rejectView, World.view, hnil] at he
      exact absurd he List.not_mem_nil
  have old : w'.nextPtr = w.nextPtr → False := fun hn => Nat.not_lt.mpr hlo (hn ▸ hhi)
  cases he with
  | callAsync _ _ hst =>
    obtain ⟨h₁, h₂, h₃, h₄⟩ := started hst
    exact ⟨h₁, _, _, rfl, h₂, h₃, h₄⟩
  | matchAsync _ _ hst =>
    obtain ⟨h₁, h₂, h₃, h₄⟩ := started hst
    exact ⟨h₁, _, _, rfl, h₂, h₃, h₄⟩
  | reply _ _ _ hg _ => exact (old hg.nextPtr).elim
  | matched _ hcase _ => exact (old (hcase.elim (·.nextPtr) fun h => h.elim fun _ hg => hg.nextPtr)).elim
  | installed _ hcase _ => exact (old (hcase.elim (·.nextPtr) fun h => h.elim fun _ hg => hg.nextPtr)).elim
  | cancel _ _ _ hq _ => exact (old hq.nextPtr).elim
  | gcHandle _ _ _ _ hq _ => exact (old hq.nextPtr).elim
  | busDrop _ _ hq => exact (old hq.nextPtr).elim
  | hup hl hw => exact (old (sweep_numbers h.inv rfl (.hup hl hw)).1).elim
  | err hl hw => exact (old (sweep_numbers h.inv rfl (.err hl hw)).1).elim
  | closeBus hw => exact (old (sweep_numbers h.inv rfl (.closeBus hw)).1).elim
  | returned => exact (old rfl).elim
  | dropHandle => exact (old rfl).elim
  | dropChan => exact (old rfl).elim
  | closeChan => exact (old rfl).elim
  | gcChan => exact (old rfl).elim

theorem Settled.step {s : Step} (hset : Settled w) (h : Sound w) (hs : step w s = some w') : Settled w' := by
  intro x hx hk c t ht
  have ht' : .wrote .handler x c t ∈ (w'.view x).hist := (mem_history rfl).mpr ht
  obtain ⟨haged, _⟩ := step_aged h hs
  by_cases hlt : x < w.nextPtr
  · have ha := haged x hlt
    have hkind : (w.heap x).kind = .Call := ha.kind.symm.trans hk
    rcases ha.handled hkind c t ht' with hold | hgone
    · exact (hset x hlt hkind c t ((mem_history rfl).mp hold)).aged ha
    · exact hgone
  · obtain ⟨_, _, _, _, _, _, hhist⟩ := step_new h hs (Nat.not_lt.mp hlt) hx
    exact absurd (hhist _ ht') (by simp)

end JanetSdbus.Async
