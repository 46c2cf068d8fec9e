import JanetSdbus.Async.Effect

/-! No pending operation is forgotten at `close-bus`.

    A record is told of the end of the connection by `closeall_pending`, which only reaches what the
    queue lists, and which `close-bus` only runs while the listener of the bus stream is attached.
    `Accounted` is the invariant: a record that was queued is still outstanding, or was cancelled, or
    answered, or told. -/

namespace JanetSdbus.Async
open Schemes.LinkedList Schemes.Run

variable {w w' w₁ : World} {p x : Ptr} {es : List Event}

/-- `closeall_pending` wrote its tuple to the channel of record `p`. -/
def Told (w : World) (p : Ptr) : Prop :=
  ∃ ev : AsyncEvent, .wrote .closeall p (w.heap p).chan ev.tuple ∈ w.log

/-- Every record queued before the close and not cancelled was told of the end of the connection,
    unless it is a call that had its status tuple already. -/
def NothingForgotten (w w' : World) : Prop :=
  ∀ p, .queued p ∈ w.log → .cancelled p ∉ w.log →
    ((w.heap p).kind = .Call → ∀ src c t, .wrote src p c t ∉ w.log) → Told w' p

/-- What a step has to meet, besides `StepOk`: nothing but a cancel takes a record out of the queue
    without a tuple, and `close-bus` finds its listener attached or nothing to tell. -/
def NotifyOk (w : World) : Step → Prop
  | .installed p m => LastRefused w p m → p ∉ w.queued ∧ UnlinkOk w p
  | .gcHandle p => (w.handles p).slot ≠ none → (w.slots p).refs ≤ 1 → p ∉ w.queued ∧ UnlinkOk w p
  | .closeBus => w.listening = true ∨ w.conn.queue = none
  | s => StepOk w s

theorem NotifyOk.stepOk {s : Step} (h : NotifyOk w s) : StepOk w s := by
  cases s with
  | installed p m => exact fun hl => (h hl).2
  | gcHandle p => exact fun hs hr => (h hs hr).2
  | closeBus => trivial
  | _ => exact h

/-! ### Records are accounted for -/

def View.told (p : Ptr) (v : View) : Prop :=
  ∃ ev : AsyncEvent, .wrote .closeall p v.chan ev.tuple ∈ v.hist

def View.answered (p : Ptr) (v : View) : Prop :=
  v.kind = .Call ∧ ∃ t, .wrote .handler p v.chan t ∈ v.hist

/-- Where a queued record went. -/
def Accounted (p : Ptr) (v : View) : Prop :=
  .queued p ∈ v.hist → v.outstanding = true ∨ .cancelled p ∈ v.hist ∨ v.told p ∨ v.answered p

/-- An operation on `p` keeps it accounted for if it does so when it takes it out of the queue. -/
theorem Accounted.given {v v' : View} {wrote : List Event} (h : Accounted p v)
    (hg : v.Given v' wrote) (hw : .queued p ∉ wrote)
    (ho : v.outstanding = true → v'.outstanding = true ∨ .cancelled p ∈ v'.hist ∨ v'.told p ∨
      v'.answered p) : Accounted p v' := by
  intro hq
  have hq' : .queued p ∈ v.hist := by
    rcases hg.mem hq with hq | hq | ⟨q, hq⟩ | ⟨q, hq⟩
    · exact hq
    · exact absurd hq hw
    · simp at hq
    · simp at hq
  rcases h hq' with h | h | ⟨ev, h⟩ | ⟨hk, t, h⟩
  · exact ho h
  · exact Or.inr (Or.inl (hg.mono _ h))
  · exact Or.inr (Or.inr (Or.inl ⟨ev, by rw [hg.chan]; exact hg.mono _ h⟩))
  · exact Or.inr (Or.inr (Or.inr ⟨by rw [hg.kind, hk], t, by rw [hg.chan]; exact hg.mono _ h⟩))

/-- The invariant. -/
structure Notified (w : World) : Prop where
  sound : Sound w
  accounted : ∀ x, Accounted x (w.view x)
  opened : ∀ c, (w.chans c).closed = false
  closed : w.conn.bus = false → ∀ x, (w.view x).outstanding = false

theorem Notified.init : Notified initial where
  sound := Sound.init
  accounted x := by simp [Accounted, World.view, initial, history]
  opened _ := rfl
  closed h := by simp [initial] at h

/-- What has to be looked at when a step changes the view of record `p`. -/
def Kept (w : World) (p : Ptr) (v : View) : Prop :=
  Accounted p v ∧ (w.conn.bus = false → v.outstanding = false)

theorem Notified.kept_given (hn : Notified w) (v' : View) {wrote : List Event}
    (hg : (w.view p).Given v' wrote) (hw : .queued p ∉ wrote)
    (ho : (w.view p).outstanding = true → v'.outstanding = true ∨ .cancelled p ∈ v'.hist ∨
      v'.told p ∨ v'.answered p) : Kept w p v' := by
  refine ⟨(hn.accounted p).given hg hw ho, fun hb => ?_⟩
  have hf := hn.closed hb p
  cases hv : v'.outstanding with
  | false => rfl
  | true => rw [hg.outstanding hv] at hf; exact hf

theorem view_outstanding (h : outstanding w'.log = outstanding w.log) :
    (w'.view p).outstanding = (w.view p).outstanding := by
  simp only [World.view, h]

theorem Notified.started (hn : Notified w) {c : ChanId} {kind : Kind} {rv : ℤ}
    (hb : rv < 0 ∨ w.conn.bus = true) (h : Started w w' c kind rv) :
    Kept w w.nextPtr (w'.view w.nextPtr) := by
  rcases h.subject with ⟨hrv, hv, _⟩ | ⟨_, hv, _⟩
  · rw [hv]
    refine ⟨fun _ => Or.inl rfl, fun hbus => ?_⟩
    rcases hb with hb | hb
    · exact absurd hb hrv
    · rw [hb] at hbus; simp at hbus
  · have hnil : history w.nextPtr w.log = [] := hn.sound.fresh _ (Nat.le_refl _)
    rw [hv]
    refine ⟨fun hq => ?_, fun hbus => hn.closed hbus w.nextPtr⟩
    rw [rejectView, World.view, hnil] at hq
    simp at hq

/-- The handle of a record lets its slot go: with two references or more nothing is destroyed. -/
theorem Inv.release_keeps (h : Inv w) (hr : (w.handles p).slot ≠ none → 1 < (w.slots p).refs) :
    outstanding (releaseHandle w p).log = outstanding w.log := by
  cases hs : (w.handles p).slot with
  | none => rw [releaseHandle_none hs]
  | some s =>
    obtain rfl := h.own p s hs
    have hm : 1 < ((w.setHandle s { w.handles s with slot := none }).slots s).refs :=
      hr (by simp [hs])
    rw [releaseHandle_eq hs, slotUnref_more hm]
    rfl

theorem Notified.subject (hn : Notified w) {s : Step} (hok : NotifyOk w s) (he : Effect w s w')
    (hsw : s.sweeps = false) (hp : s.subject w = some p) : Kept w p (w'.view p) := by
  have hq := hn.sound.inv.queued_eq
  have hself : Kept w p (w.view p) := ⟨hn.accounted p, fun hb => hn.closed hb p⟩
  have stays : ∀ {w₁ : World} {wrote : List Event}, (w.view p).Given (w₁.view p) wrote →
      .queued p ∉ wrote → outstanding w₁.log = outstanding w.log → Kept w p (w₁.view p) :=
    fun hg hw ho => hn.kept_given _ hg hw fun h => Or.inl (by rw [view_outstanding ho]; exact h)
  cases he with
  | callAsync _ hb h => obtain rfl := (Option.some.inj hp).symm; exact hn.started hb h
  | matchAsync _ hb h => obtain rfl := (Option.some.inj hp).symm; exact hn.started hb h
  | returned es _ _ hes =>
    obtain rfl := (Option.some.inj hp).symm
    rw [view_setHandle_self, view_returned hes]
    exact hself
  | @reply _ m _ hc _ _ h _ =>
    obtain rfl := (Option.some.inj hp).symm
    have hg := h.view
    refine hn.kept_given _ hg (wroteIf_queued _ _ _ _ _) fun _ => Or.inr (Or.inr (Or.inr ?_))
    refine ⟨by rw [hg.kind]; exact (World.callable_spec hc).2.2.1, handlerTuple .Call m,
      hg.wrote_mem _ ?_⟩
    rw [World.wroteIf, if_neg (by simp [hn.opened]), hg.chan]
    exact List.mem_singleton.mpr rfl
  | matched _ h ho =>
    obtain rfl := (Option.some.inj hp).symm
    rcases h with h | ⟨t, h⟩
    · exact stays h.view (by simp) ho
    · exact stays h.view (wroteIf_queued _ _ _ _ _) ho
  | installed _ h ho =>
    obtain rfl := (Option.some.inj hp).symm
    -- the bus's reference was the last one only if the record had left the queue before
    have hout : (w.view p).outstanding = true → (w'.view p).outstanding = true := by
      intro hv
      have hmem : p ∈ outstanding w.log := of_decide_eq_true hv
      have hno : ¬ LastRefused w p _ := fun hl => (hok hl).1 (hq ▸ hmem)
      rw [view_outstanding (ho hno)]; exact hv
    rcases h with h | ⟨t, h⟩
    · exact hn.kept_given _ h.view (by simp) fun hv => Or.inl (hout hv)
    · exact hn.kept_given _ h.view (wroteIf_queued _ _ _ _ _) fun hv => Or.inl (hout hv)
  | cancel w₁ _ _ h _ =>
    obtain rfl := (Option.some.inj hp).symm
    have hnote : (w₁.note (.cancelled p)).view p =
        { w₁.view p with hist := .cancelled p :: (w₁.view p).hist } := by
      simp [World.view, World.note, history, Event.record, outstanding]
    have hk := hn.kept_given (w₁.view p) h.view (by simp)
    rw [hnote]
    refine ⟨fun _ => Or.inr (Or.inl (by simp)), fun hb => ?_⟩
    have hf := hn.closed hb p
    cases hv : (w₁.view p).outstanding with
    | false => rfl
    | true => rw [h.view.outstanding hv] at hf; simp at hf
  | dropHandle _ =>
    obtain rfl := (Option.some.inj hp).symm
    rw [view_setHandle_self]
    exact hself
  | gcHandle w₁ _ _ _ h hw₁ =>
    obtain rfl := (Option.some.inj hp).symm
    rw [view_setHandle_self]
    refine hn.kept_given (w₁.view p) h.view (by simp) fun hv => Or.inl ?_
    have hmem : p ∈ outstanding w.log := of_decide_eq_true hv
    have hkeep := hn.sound.inv.release_keeps (p := p) fun hs => by
      by_contra hr
      exact (hok hs (Nat.le_of_not_lt hr)).1 (hq ▸ hmem)
    rw [hw₁, view_outstanding hkeep]; exact hv
  | busDrop _ hb h =>
    obtain rfl := (Option.some.inj hp).symm
    refine hn.kept_given _ h.view (by simp) fun hv => ?_
    rw [hn.closed hb p] at hv; simp at hv
  | dropChan => simp [Step.subject] at hp
  | closeChan => simp [Step.subject] at hp
  | gcChan _ => simp [Step.subject] at hp
  | hup => simp [Step.sweeps] at hsw
  | err => simp [Step.sweeps] at hsw
  | closeBus => simp [Step.sweeps] at hsw

/-! ### A sweep tells every outstanding record -/

/-- Before a turn of the loop, `T` being the records that are to be told: those not still to be
    visited have been. -/
structure Telling (T : Ptr → Prop) (tuple : Tuple) (l : List Ptr) (w : World) : Prop where
  tuple : ∃ ev : AsyncEvent, tuple = ev.tuple
  opened : ∀ c, (w.chans c).closed = false
  accounted : ∀ x, Accounted x (w.view x)
  sub : ∀ x, (w.view x).outstanding = true → T x
  told : ∀ x, T x → x ∈ l ∨ (w.view x).told x

theorem View.told.given {v v' : View} {wrote : List Event} (h : v.told p) (hg : v.Given v' wrote) :
    v'.told p := by
  obtain ⟨ev, he⟩ := h
  exact ⟨ev, by rw [hg.chan]; exact hg.mono _ he⟩

theorem Telling.visit {T : Ptr → Prop} {tuple : Tuple} {l : List Ptr} (h : Inv w)
    (hJ : Telling T tuple (p :: l) w) :
    (closeallVisit tuple w p).Ends (Telling T tuple l) fun _ => False := by
  obtain ⟨ev, rfl⟩ := hJ.tuple
  have hv := closeallVisit_ends h ev.tuple p
  cases hc : closeallVisit ev.tuple w p with
  | diverged => rw [hc] at hv; exact hv
  | raised w' e => rw [hc] at hv; exact absurd hv.1 (by simp [hJ.opened])
  | done w' =>
    rw [hc] at hv
    have hg := hv.view
    have htold : (w'.view p).told p := by
      refine ⟨ev, hg.wrote_mem _ ?_⟩
      rw [hg.chan]
      exact List.mem_singleton.mpr rfl
    have hchans : w'.chans = w.chans := by obtain ⟨es, f, _⟩ := hv.frame; exact f.chans
    refine ⟨⟨ev, rfl⟩, fun c => by rw [hchans]; exact hJ.opened c, fun x => ?_, fun x hx => ?_,
      fun x hx => ?_⟩
    · by_cases hxp : x = p
      · subst hxp
        exact (hJ.accounted x).given hg (by simp) fun _ => Or.inr (Or.inr (Or.inl htold))
      · rw [hv.view_other hxp]; exact hJ.accounted x
    · by_cases hxp : x = p
      · subst hxp; exact hJ.sub x (hg.outstanding hx)
      · rw [hv.view_other hxp] at hx; exact hJ.sub x hx
    · by_cases hxp : x = p
      · subst hxp; exact Or.inr htold
      · rw [hv.view_other hxp]
        rcases hJ.told x hx with hm | ht
        · exact Or.inl ((List.mem_cons.mp hm).resolve_left hxp)
        · exact Or.inr ht

/-- The records that are outstanding or have been told. -/
def World.notify (w : World) (x : Ptr) : Prop := (w.view x).outstanding = true ∨ (w.view x).told x

theorem Notified.telling (hn : Notified w) (ev : AsyncEvent) :
    Telling w.notify ev.tuple (outstanding w.log) w where
  tuple := ⟨ev, rfl⟩
  opened := hn.opened
  accounted := hn.accounted
  sub _ hx := Or.inl hx
  told _ hx := hx.imp of_decide_eq_true id

theorem Telling.swept {T : Ptr → Prop} {tuple : Tuple} (hJ : Telling T tuple [] w₁)
    (hs : SweptFrom w₁ w') : (∀ x, Accounted x (w'.view x)) ∧ (∀ c, (w'.chans c).closed = false) ∧
      ∀ x, T x → (w'.view x).told x := by
  have htold : ∀ x, T x → (w₁.view x).told x := fun x hx => (hJ.told x hx).resolve_left (by simp)
  refine ⟨fun x => ?_, fun c => by rw [hs.chans]; exact hJ.opened c, fun x hx => ?_⟩
  · rw [hs.views x]
    intro hq
    rcases hJ.accounted x hq with ho | hrest
    · exact Or.inr (Or.inr (Or.inl (htold x (hJ.sub x ho))))
    · exact Or.inr hrest
  · rw [hs.views x]; exact htold x hx

theorem swept_closed (hs : SweptFrom w₁ w') (x : Ptr) : (w'.view x).outstanding = false := by
  rw [hs.views x]

/-- What a sweep leaves. -/
structure AllTold (w w' : World) : Prop where
  accounted : ∀ x, Accounted x (w'.view x)
  opened : ∀ c, (w'.chans c).closed = false
  empty : ∀ x, (w'.view x).outstanding = false
  told : ∀ x, w.notify x → (w'.view x).told x

theorem Telling.visits (T : Ptr → Prop) (tuple : Tuple) (p : Ptr) (l : List Ptr) (w : World)
    (h : Inv w) (_ : ∃ l₁, outstanding w.log = l₁ ++ p :: l) (hJ : Telling T tuple (p :: l) w) :
    (closeallVisit tuple w p).Ends (Telling T tuple l) fun _ => False := hJ.visit h

theorem Telling.allTold {tuple : Tuple} (hJ : Telling w.notify tuple [] w₁) (hs : SweptFrom w₁ w') :
    AllTold w w' := by
  obtain ⟨h₁, h₂, h₃⟩ := hJ.swept hs
  exact ⟨h₁, h₂, swept_closed hs, h₃⟩

theorem Notified.callback (hn : Notified w) {ev : AsyncEvent}
    (hw : (busCallback w ev).world? = some w') : AllTold w w' := by
  have hb := busCallback_swept (Telling.visits w.notify) ev hn.sound.inv (hn.telling ev)
  cases hc : busCallback w ev with
  | diverged => rw [hc] at hb; exact absurd hb id
  | raised w₂ e => rw [hc] at hb; exact absurd hb id
  | done w₂ =>
    rw [hc] at hb hw
    obtain rfl := Option.some.inj hw
    obtain ⟨w₃, hJ, hs, _⟩ := hb
    exact hJ.allTold hs

theorem Notified.close (hn : Notified w) (hok : w.listening = true ∨ w.conn.queue = none)
    (hw : (cfunCloseBus w).world? = some w') : AllTold w w' := by
  have hb := cfunCloseBus_swept (Telling.visits w.notify) hn.sound.inv (hn.telling .close)
  cases hc : cfunCloseBus w with
  | diverged => rw [hc] at hb; exact absurd hb id
  | raised w₂ e => rw [hc] at hb; exact absurd hb id
  | done w₂ =>
    rw [hc] at hb hw
    obtain rfl := Option.some.inj hw
    obtain ⟨_, _, _, hb⟩ := hb
    split at hb
    · obtain ⟨w₃, hJ, hs⟩ := hb
      exact hJ.allTold hs
    · next hl =>
      have hq : w.conn.queue = none := hok.resolve_left hl
      have ho : outstanding w.log = [] := by
        by_contra hne; exact hn.sound.inv.repr.ne_nil_iff.mp hne hq
      have hempty : ∀ x, (w.view x).outstanding = false := fun x => by simp [World.view, ho]
      rw [hb.1]
      exact ⟨hn.accounted, hn.opened, hempty, fun x hx => hx.resolve_left (by simp [hempty])⟩

theorem Notified.sweep (hn : Notified w) {s : Step} (hok : NotifyOk w s) (he : Effect w s w')
    (hsw : s.sweeps = true) : AllTold w w' := by
  cases he with
  | hup _ hw => exact hn.callback hw
  | err _ hw => exact hn.callback hw
  | closeBus hw => exact hn.close hok hw
  | _ => simp [Step.sweeps] at hsw

theorem Notified.step (hn : Notified w) {s : Step} (hok : NotifyOk w s)
    (hopen : ∀ c, s ≠ .closeChan c) (hs : step w s = some w') : Notified w' := by
  have he := step_effect hn.sound.inv hs
  have hsound := hn.sound.step hok.stepOk hs
  cases hsw : s.sweeps with
  | true =>
    have ht := hn.sweep hok he hsw
    exact ⟨hsound, ht.accounted, ht.opened, fun _ => ht.empty⟩
  | false =>
    have hbus := (he.conn hsw).1
    refine ⟨hsound, fun x => ?_, fun c => by rw [he.closed hsw hopen]; exact hn.opened c,
      fun hb x => ?_⟩
    · by_cases hx : s.subject w = some x
      · exact (hn.subject hok he hsw hx).1
      · rw [he.others hsw hx]; exact hn.accounted x
    · rw [hbus] at hb
      by_cases hx : s.subject w = some x
      · exact (hn.subject hok he hsw hx).2 hb
      · rw [he.others hsw hx]; exact hn.closed hb x

/-! ### Runs -/

theorem told_iff : (w.view p).told p ↔ Told w p := by
  refine exists_congr fun ev => ?_
  exact mem_history rfl

/-- A run in which every step meets `NotifyOk` and no channel is closed, and then a `close-bus` that
    comes back: nobody waits for ever. A sweep that touches a freed record or a finalized object counts
    as coming back here; that it touches none is `Sweepable`. -/
theorem nothing_forgotten (steps : List Step) (w w' : World)
    (hopen : ∀ s ∈ steps, ∀ c, s ≠ .closeChan c)
    (hok : Meets step NotifyOk initial (steps ++ [.closeBus]))
    (hrun : exec step initial steps = some w) (hret : cfunCloseBus w = .done w') :
    NothingForgotten w w' := by
  obtain ⟨hsteps, hlast⟩ := hok.append hrun
  have hn : Notified w := (hsteps.and hopen).invariant
    (fun _ _ _ hn hok hs => hn.step hok.1 hok.2 hs) Notified.init hrun
  have hw : (cfunCloseBus w).world? = some w' := by rw [hret]; rfl
  have htold := (hn.close (hlast w' hw).1 hw).told
  intro p hq hnc hnw
  refine told_iff.mp (htold p ?_)
  rcases hn.accounted p ((mem_history rfl).mpr hq) with h | h | h | ⟨hk, t, h⟩
  · exact Or.inl h
  · exact absurd ((mem_history rfl).mp h) hnc
  · exact Or.inr h
  · exact absurd ((mem_history rfl).mp h) (hnw hk _ _ t)

theorem nothing_forgotten_call : ∃ w w', exec step initial [.callAsync 0 1] = some w ∧
    cfunCloseBus w = .done w' ∧ NothingForgotten w w' := by
  have hrun : (exec step initial [.callAsync 0 1]).map
      (fun w => (w.listening, (cfunCloseBus w).done?.isSome)) =
      some (true, true) := by decide +kernel
  obtain ⟨w, hw, hview⟩ := Option.map_eq_some_iff.mp hrun
  obtain ⟨hl, hdone⟩ := Prod.ext_iff.mp hview
  cases hret : cfunCloseBus w with
  | diverged => simp [hret, Outcome.done?] at hdone
  | raised w' e => simp [hret, Outcome.done?] at hdone
  | done w' =>
    refine ⟨w, w', hw, hret, nothing_forgotten _ w w' (by simp) ?_ hw hret⟩
    intro s hs
    obtain rfl : s = w := by simpa [exec, hs] using hw
    exact ⟨trivial, fun _ _ => ⟨Or.inl hl, trivial⟩⟩

/-- A call made after the bus stream hung up is still pending when the bus is closed. -/
def hangupRun : List Step := [.callAsync 0 1, .returned 0, .hup, .callAsync 1 1, .returned 1]

/-- `close-bus` finds no listener and writes nothing to the channel of record 1. -/
theorem hangupRun_forgets : ¬ ∀ (steps : List Step) (w w' : World),
    (∀ s ∈ steps, ∀ c, s ≠ .closeChan c) → exec step initial steps = some w →
      cfunCloseBus w = .done w' → NothingForgotten w w' := by
  intro h
  have hrun : (exec step initial hangupRun).map
      (fun w => (w.log, (cfunCloseBus w).done?.map (·.log))) =
      some ([.queued 1, .swept, .wrote .closeall 0 0 (.error "D-Bus connection error"), .queued 0],
        some [.queued 1, .swept, .wrote .closeall 0 0 (.error "D-Bus connection error"), .queued 0]) := by
    decide +kernel
  obtain ⟨w, hw, hview⟩ := Option.map_eq_some_iff.mp hrun
  obtain ⟨hlog, hlog'⟩ := Prod.ext_iff.mp hview
  simp only at hlog hlog'
  cases hret : cfunCloseBus w with
  | diverged => simp [hret, Outcome.done?] at hlog'
  | raised w' e => simp [hret, Outcome.done?] at hlog'
  | done w' =>
    rw [hret] at hlog'
    simp only [Outcome.done?, Option.map_some, Option.some.injEq] at hlog'
    have hopen : ∀ s ∈ hangupRun, ∀ c, s ≠ .closeChan c := by simp [hangupRun]
    obtain ⟨ev, he⟩ := h hangupRun w w' hopen hw hret 1 (by simp [hlog]) (by simp [hlog])
      (by simp [hlog])
    rw [hlog'] at he
    simp at he

end JanetSdbus.Async
