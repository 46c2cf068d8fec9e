import JanetSdbus.Async.Sweep

/-! Handles and channels outlive their users.

    The collector sees what Janet code refers to and the two streams; the records of the queue are C
    memory it never looks at. `CollectOk` spells out what it must not finalize, and under it no
    operation of the connection uses a finalized object. -/

namespace JanetSdbus.Async
open Schemes.LinkedList Schemes.Run

variable {w w' w₁ : World} {p x : Ptr} {es es₁ es₂ : List Event}

/-- No finalized handle or channel was ever used. -/
def NoUse (w : World) : Prop := ∀ e ∈ w.log, e.use = false

/-- sd-bus still holds record `p` for a callback: a match that is connected, or a call whose reply is
    due. -/
def World.due (w : World) (p : Ptr) : Prop :=
  w.conn.bus = true ∧ (w.slots p).connected = true ∧ p < w.nextPtr ∧
    ((w.heap p).kind = .Match ∨ (w.slots p).awaiting = true)

/-- A sweep can still reach record `p`. -/
def World.swept (w : World) (p : Ptr) : Prop := w.listening = true ∧ p ∈ w.queued

/-- What a step has to meet, besides `StepOk`: the collector leaves the handle of a record alone that
    a sweep can reach or whose call has not returned yet, and the channel of a record that a sweep or
    a callback can reach. -/
def CollectOk (w : World) : Step → Prop
  | .gcHandle p => StepOk w (.gcHandle p) ∧ ¬ w.swept p ∧ (w.handles p).ref ≠ .callee
  | .gcChan c => ∀ p, w.swept p ∨ w.due p → (w.heap p).chan ≠ c
  | s => StepOk w s

theorem CollectOk.stepOk {s : Step} (h : CollectOk w s) : StepOk w s := by
  cases s with
  | gcHandle p => exact h.1
  | gcChan c => trivial
  | _ => exact h

/-! ### The invariant -/

/-- A sweep can reach the record. -/
def View.swept (w : World) (v : View) : Prop := w.listening = true ∧ v.outstanding = true

/-- A callback of the record can still run. -/
def View.due (w : World) (v : View) : Prop :=
  w.conn.bus = true ∧ v.slot.connected = true ∧ (v.kind = .Match ∨ v.slot.awaiting = true)

structure Collected (w : World) : Prop where
  noUse : NoUse w
  chan : ∀ x, x < w.nextPtr → (w.view x).swept w ∨ (w.view x).due w →
    (w.chans (w.view x).chan).finalized = false
  handle : ∀ x, x < w.nextPtr → (w.view x).swept w → (w.view x).handle.finalized = false
  callee : ∀ x, x < w.nextPtr → (w.view x).handle.ref = .callee →
    (w.view x).handle.finalized = false
  rooted : ∀ c, (w.chans c).rooted = true → (w.chans c).finalized = false

theorem Collected.init : Collected initial where
  noUse := by simp [NoUse, initial]
  chan x h := absurd h (Nat.not_lt_zero x)
  handle x h := absurd h (Nat.not_lt_zero x)
  callee x h := absurd h (Nat.not_lt_zero x)
  rooted _ _ := rfl

/-- Nothing a sweep or a callback can reach is added. -/
structure Tame (v v' : View) : Prop where
  chan : v'.chan = v.chan
  kind : v'.kind = v.kind
  outstanding : v'.outstanding = true → v.outstanding = true
  connected : v'.slot.connected = true → v.slot.connected = true
  awaiting : v'.slot.awaiting = true → v.slot.awaiting = true
  finalized : v'.handle.finalized = v.handle.finalized
  ref : v'.handle.ref = .callee → v.handle.ref = .callee

theorem Tame.refl (v : View) : Tame v v := ⟨rfl, rfl, id, id, id, rfl, id⟩

theorem Tame.given {v v' : View} {wrote : List Event} (hg : v.Given v' wrote) : Tame v v' :=
  ⟨hg.chan, hg.kind, hg.outstanding, hg.connected, hg.awaiting, hg.finalized,
    fun h => by rw [← hg.ref]; exact h⟩

theorem Tame.swept {v v' : View} (h : Tame v v') (hl : w'.listening = true → w.listening = true)
    (hs : v'.swept w') : v.swept w := ⟨hl hs.1, h.outstanding hs.2⟩

theorem Tame.due {v v' : View} (h : Tame v v') (hb : w'.conn.bus = true → w.conn.bus = true)
    (hd : v'.due w') : v.due w := by
  obtain ⟨h₁, h₂, h₃⟩ := hd
  refine ⟨hb h₁, h.connected h₂, ?_⟩
  rw [← h.kind]
  exact h₃.imp id h.awaiting

/-- The step and run lemma in one: tame changes and a log without uses keep the invariant. -/
theorem Collected.carry (h : Collected w) (hv : ∀ x, Tame (w.view x) (w'.view x))
    (hn : w'.nextPtr = w.nextPtr) (hch : w'.chans = w.chans)
    (hb : w'.conn.bus = true → w.conn.bus = true) (hl : w'.listening = true → w.listening = true)
    (hlog : NoUse w') : Collected w' where
  noUse := hlog
  chan x hx hr := by
    rw [hch, (hv x).chan]
    exact h.chan x (hn ▸ hx) (hr.imp ((hv x).swept hl) ((hv x).due hb))
  handle x hx hs := by
    rw [(hv x).finalized]; exact h.handle x (hn ▸ hx) ((hv x).swept hl hs)
  callee x hx hr := by
    rw [(hv x).finalized]; exact h.callee x (hn ▸ hx) ((hv x).ref hr)
  rooted c := by rw [hch]; exact h.rooted c

theorem NoUse.append (h : NoUse w) (hlog : w'.log = es ++ w.log) (hes : ∀ e ∈ es, e.use = false) :
    NoUse w' := by
  intro e he
  rw [hlog] at he
  rcases List.mem_append.mp he with he | he
  · exact hes e he
  · exact h e he

/-- A callback whose channel has not been finalized gives its tuple without a fault. -/
theorem giveLog_noUse {src : Source} {t : Tuple} (h : (w.chans (w.heap p).chan).finalized = false) :
    ∀ e ∈ w.giveLog src p t, e.use = false := by
  have hf : w.chanFault p = [] := by rw [World.chanFault, if_neg (by simp [h])]
  rw [World.giveLog, hf]
  intro e he
  split at he
  · simp at he
  · rw [List.mem_singleton.mp he]; rfl

theorem Collected.quiet (h : Collected w) (hq : Quiet w w' p) : Collected w' := by
  have hv : ∀ x, Tame (w.view x) (w'.view x) := by
    intro x
    by_cases hx : x = p
    · subst hx; exact Tame.given hq.view
    · rw [hq.view_other hx]; exact Tame.refl _
  obtain ⟨es, f, hes⟩ := hq
  refine h.carry hv f.nextPtr f.chans (fun hb => f.bus ▸ hb) (fun hl => ?_)
    (h.noUse.append f.log fun e he => use_of_quiet (hes e he))
  rw [World.listening, f.stream] at hl; exact hl

theorem Collected.gave (h : Collected w) {src : Source} {t : Tuple} (hg : Gave w w' src p t)
    (hc : (w.chans (w.heap p).chan).finalized = false) : Collected w' := by
  have hv : ∀ x, Tame (w.view x) (w'.view x) := by
    intro x
    by_cases hx : x = p
    · subst hx; exact Tame.given hg.view
    · rw [hg.view_other hx]; exact Tame.refl _
  obtain ⟨es₁, es₂, f, q₁, q₂⟩ := hg
  refine h.carry hv f.nextPtr f.chans (fun hb => f.bus ▸ hb) (fun hl => ?_)
    (h.noUse.append f.log fun e he => ?_)
  · rw [World.listening, f.stream] at hl; exact hl
  · rcases List.mem_append.mp he with he | he
    · exact use_of_quiet (q₂ e he)
    rcases List.mem_append.mp he with he | he
    · exact giveLog_noUse hc e he
    · exact use_of_quiet (q₁ e he)

theorem Collected.due_chan (h : Collected w) (hd : w.due p) :
    (w.chans (w.heap p).chan).finalized = false := by
  obtain ⟨hb, hconn, hlt, hk⟩ := hd
  exact h.chan p hlt (Or.inr ⟨hb, hconn, hk⟩)

theorem due_of_callable {k : Kind} (hc : w.callable p k = true)
    (hk : k = .Match ∨ (w.slots p).awaiting = true) : w.due p := by
  obtain ⟨hb, hconn, hkind, hlt⟩ := World.callable_spec hc
  exact ⟨hb, hconn, hlt, hkind.symm ▸ hk⟩

theorem Collected.started (h : Collected w) {c : ChanId} {kind : Kind} {rv : ℤ}
    (hr : (w.chans c).rooted = true) (hs : Started w w' c kind rv) : Collected w' := by
  have hl : w'.listening = w.listening := by rw [World.listening, hs.stream]; rfl
  have old : ∀ x, x < w'.nextPtr → x ≠ w.nextPtr → x < w.nextPtr := by
    intro x hx hne
    rw [hs.nextPtr] at hx
    exact Nat.lt_of_le_of_ne (Nat.le_of_lt_succ hx) hne
  have hchan : (w'.view w.nextPtr).chan = c ∧ (w'.view w.nextPtr).handle.finalized = false := by
    rcases hs.subject with ⟨_, hv, _⟩ | ⟨_, hv, _⟩ <;> rw [hv] <;> exact ⟨rfl, rfl⟩
  refine ⟨?_, fun x hx hreach => ?_, fun x hx hsw => ?_, fun x hx href => ?_, fun d => ?_⟩
  · obtain ⟨es, hlog, hes⟩ := hs.log
    refine h.noUse.append hlog fun e he => ?_
    rcases hes e he with rfl | ⟨q, rfl⟩ <;> rfl
  · rw [hs.chans]
    by_cases hne : x = w.nextPtr
    · rw [hne, hchan.1]; exact h.rooted c hr
    · rw [hs.others x hne] at hreach ⊢
      refine h.chan x (old x hx hne) (hreach.imp (fun hsw => ⟨hl ▸ hsw.1, hsw.2⟩) fun hd => ?_)
      exact ⟨hs.bus ▸ hd.1, hd.2⟩
  · by_cases hne : x = w.nextPtr
    · rw [hne]; exact hchan.2
    · rw [hs.others x hne] at hsw ⊢
      exact h.handle x (old x hx hne) ⟨hl ▸ hsw.1, hsw.2⟩
  · by_cases hne : x = w.nextPtr
    · rw [hne]; exact hchan.2
    · rw [hs.others x hne] at href ⊢
      exact h.callee x (old x hx hne) href
  · rw [hs.chans]; exact h.rooted d

/-- A handle that changes hands. -/
theorem Collected.setRef (h : Collected w) {r : Ref} (hr : r ≠ .callee) :
    Collected (w.setHandle p { w.handles p with ref := r }) := by
  refine h.carry (fun x => ?_) rfl rfl id id h.noUse
  by_cases hx : x = p
  · subst hx
    rw [view_setHandle_self]
    exact ⟨rfl, rfl, id, id, id, rfl, fun he => absurd he hr⟩
  · rw [view_setHandle hx]; exact Tame.refl _

theorem Collected.finalize (h : Collected w) (hlt : p < w.nextPtr) (hsw : ¬ (w.view p).swept w)
    (hr : (w.handles p).ref ≠ .callee) :
    Collected (w.setHandle p { w.handles p with finalized := true }) where
  noUse := h.noUse
  chan x hx hreach := by
    by_cases hxp : x = p
    · subst hxp; rw [view_setHandle_self] at hreach ⊢; exact h.chan x hlt hreach
    · rw [view_setHandle hxp] at hreach ⊢; exact h.chan x hx hreach
  handle x hx hs := by
    by_cases hxp : x = p
    · subst hxp; rw [view_setHandle_self] at hs; exact absurd hs hsw
    · rw [view_setHandle hxp] at hs ⊢; exact h.handle x hx hs
  callee x hx hc := by
    by_cases hxp : x = p
    · subst hxp; rw [view_setHandle_self] at hc; exact absurd hc hr
    · rw [view_setHandle hxp] at hc ⊢; exact h.callee x hx hc
  rooted := h.rooted

theorem Collected.setChan (h : Collected w) {c : ChanId} {ch : Chan}
    (hroot : ch.rooted = true → ch.finalized = false)
    (hf : ch.finalized = true → (w.chans c).finalized = false →
      ∀ x, x < w.nextPtr → (w.view x).swept w ∨ (w.view x).due w → (w.view x).chan ≠ c) :
    Collected { w with chans := Function.update w.chans c ch } where
  noUse := h.noUse
  chan x hx hreach := by
    have hold : (w.chans (w.view x).chan).finalized = false := h.chan x hx hreach
    by_cases hc : (w.view x).chan = c
    · show (Function.update w.chans c ch (w.view x).chan).finalized = false
      rw [hc, Function.update_self]
      cases hfin : ch.finalized with
      | false => rfl
      | true => exact absurd hc (hf hfin (hc ▸ hold) x hx hreach)
    · show (Function.update w.chans c ch (w.view x).chan).finalized = false
      rw [Function.update_of_ne hc]; exact hold
  handle x hx hs := h.handle x hx hs
  callee x hx hr := h.callee x hx hr
  rooted d := by
    by_cases hd : d = c
    · subst hd; show (Function.update w.chans d ch d).rooted = true → _
      simp only [Function.update_self]; exact hroot
    · show (Function.update w.chans c ch d).rooted = true → _
      simp only [Function.update_of_ne hd]; exact h.rooted d

/-! ### Steps -/

theorem due_iff (hlt : p < w.nextPtr) (hd : (w.view p).due w) : w.due p :=
  ⟨hd.1, hd.2.1, hlt, hd.2.2⟩

theorem swept_iff (hi : Inv w) : (w.view p).swept w ↔ w.swept p := by
  rw [View.swept, World.swept, hi.queued_eq]
  exact and_congr_right fun _ => decide_eq_true_iff

/-- One turn of the loop, whether the channel takes the tuple or not. -/
theorem Collected.visit (h : Collected w) (hi : Inv w) (hl : w.listening = true)
    (hp : p ∈ outstanding w.log) (tuple : Tuple) :
    (closeallVisit tuple w p).All fun w' => Collected w' ∧ w'.listening = true := by
  have hlt := (hi.live p hp).1
  have hsw : (w.view p).swept w := ⟨hl, decide_eq_true hp⟩
  have hchan : (w.chans (w.heap p).chan).finalized = false := h.chan p hlt (Or.inl hsw)
  have hhandle : (w.handles p).finalized = false := h.handle p hlt hsw
  have hfault : w.chanFault p = [] := by rw [World.chanFault, if_neg (by simp [hchan])]
  have hfreed : ∀ e ∈ w.freedOf .closeall [p], e.use = false := by
    intro e he
    obtain ⟨q, _, _, rfl⟩ := mem_freedOf.mp he
    rfl
  have hv := closeallVisit_ends hi tuple p
  cases hc : closeallVisit tuple w p with
  | diverged => rw [hc] at hv; exact hv
  | raised w' e =>
    rw [hc] at hv
    obtain ⟨_, rfl⟩ := hv
    refine ⟨h.carry (fun x => ?_) rfl rfl id id (h.noUse.append rfl ?_), hl⟩
    · rw [view_refused w p x]; exact Tame.refl _
    · rw [hfault]; exact hfreed
  | done w' =>
    rw [hc] at hv
    have hview : ∀ x, Tame (w.view x) (w'.view x) := by
      intro x
      by_cases hx : x = p
      · subst hx; exact Tame.given hv.view
      · rw [hv.view_other hx]; exact Tame.refl _
    obtain ⟨es, f, hes⟩ := hv.frame
    have hlis : w'.listening = w.listening := by rw [World.listening, f.stream]; rfl
    refine ⟨h.carry hview f.nextPtr f.chans (fun hb => f.bus ▸ hb) (fun h => hlis ▸ h)
      (h.noUse.append f.log fun e he => ?_), hlis.trans hl⟩
    rcases List.mem_append.mp he with he | he
    · exact use_of_quiet (hes e he)
    have hlog : w.closeallLog tuple p =
        .wrote .closeall p (w.heap p).chan tuple :: w.freedOf .closeall [p] := by
      simp [World.closeallLog, hhandle, hfault]
    rw [hlog] at he
    rcases List.mem_cons.mp he with rfl | he
    · rfl
    · exact hfreed e he

theorem Collected.visits (tuple : Tuple) (p : Ptr) (l : List Ptr) (w : World) (hi : Inv w)
    (hl : ∃ l₁, outstanding w.log = l₁ ++ p :: l) (h : Collected w ∧ w.listening = true) :
    (closeallVisit tuple w p).All fun w' => Collected w' ∧ w'.listening = true := by
  obtain ⟨l₁, ho⟩ := hl
  exact h.1.visit hi h.2 (by rw [ho]; simp) tuple

theorem Collected.sweptFrom (h : Collected w₁) (hs : SweptFrom w₁ w')
    (hb : w'.conn.bus = true → w₁.conn.bus = true)
    (hl : w'.listening = true → w₁.listening = true) : Collected w' := by
  refine h.carry (fun x => ?_) hs.nextPtr hs.chans hb hl fun e he => ?_
  · rw [hs.views x]
    exact ⟨rfl, rfl, fun ho => by simp at ho, id, id, rfl, id⟩
  · rcases hs.log e he with he | rfl
    · exact h.noUse e he
    · rfl

theorem Collected.callback (h : Collected w) (hi : Inv w) (hl : w.listening = true)
    (ev : AsyncEvent) : (busCallback w ev).All Collected := by
  have hb := busCallback_swept (J := fun _ _ w => Collected w ∧ w.listening = true)
    (R := fun w => Collected w ∧ w.listening = true) Collected.visits ev hi ⟨h, hl⟩
  cases hc : busCallback w ev with
  | diverged => rw [hc] at hb; exact hb
  | raised w₂ e => rw [hc] at hb; exact hb.1
  | done w₂ =>
    rw [hc] at hb
    obtain ⟨w₃, ⟨h₃, hl₃⟩, hs, hbus⟩ := hb
    exact h₃.sweptFrom hs (fun h => hbus ▸ h) fun _ => hl₃

theorem Collected.close (h : Collected w) (hi : Inv w) (hw : (cfunCloseBus w).world? = some w') :
    Collected w' := by
  cases hl : w.listening with
  | false =>
    obtain ⟨hst, hbus, hv⟩ := cfunCloseBus_deaf hl hw
    have hview : ∀ x, w'.view x = w.view x := fun x => by rw [hv]; rfl
    refine h.carry (fun x => by rw [hview]; exact Tame.refl _) (by rw [hv]) (by rw [hv])
      (fun hb => by rw [hbus] at hb; simp at hb)
      (fun hl' => by rw [World.listening, hst] at hl'; simp at hl') ?_
    rw [NoUse, hv]; exact h.noUse
  | true =>
    have hb := cfunCloseBus_swept (J := fun _ _ w => Collected w ∧ w.listening = true)
      (R := fun w => Collected w ∧ w.listening = true) Collected.visits hi ⟨h, hl⟩
    cases hc : cfunCloseBus w with
    | diverged => rw [hc] at hb; exact absurd hb id
    | raised w₂ e => rw [hc] at hb hw; obtain rfl := Option.some.inj hw; exact hb.1
    | done w₂ =>
      rw [hc] at hb hw
      obtain rfl := Option.some.inj hw
      obtain ⟨hbus, hst, _, hb⟩ := hb
      rw [if_pos hl] at hb
      obtain ⟨w₃, ⟨h₃, hl₃⟩, hs⟩ := hb
      exact h₃.sweptFrom hs (fun h => by rw [hbus] at h; simp at h) fun _ => hl₃

theorem Collected.step (h : Collected w) (hi : Inv w) {s : Step} (hok : CollectOk w s)
    (hs : step w s = some w') : Collected w' := by
  have he := step_effect hi hs
  cases he with
  | callAsync hr _ hst => exact h.started hr hst
  | matchAsync hr _ hst => exact h.started hr hst
  | @returned p es hlt hr hes =>
    have hfin := h.callee p hlt hr
    have hlog : Collected (w.logged es) := by
      refine h.carry (fun x => ?_) rfl rfl id id (h.noUse.append rfl fun e he => ?_)
      · rw [view_returned hes]; exact Tame.refl _
      · rcases hes e he with ⟨rfl, hf⟩ | rfl
        · exact absurd (hfin.symm.trans hf) (by simp)
        · rfl
    exact hlog.setRef (by simp)
  | @reply p m _ hc _ _ hg _ =>
    have haw : (w.slots p).awaiting = true := by
      simp only [Async.step, Option.ite_none_right_eq_some] at hs
      exact hs.1.2.1
    exact h.gave hg (h.due_chan (due_of_callable hc (Or.inr haw)))
  | matched hc hg _ =>
    rcases hg with hq | ⟨t, hg⟩
    · exact h.quiet hq
    · exact h.gave hg (h.due_chan (due_of_callable hc (Or.inl rfl)))
  | installed hc hg _ =>
    rcases hg with hq | ⟨t, hg⟩
    · exact h.quiet hq
    · exact h.gave hg (h.due_chan (due_of_callable hc (Or.inl rfl)))
  | cancel w₁ _ _ hq _ =>
    have h₁ := h.quiet hq
    refine h₁.carry (fun x => ⟨rfl, rfl, id, id, id, rfl, id⟩) rfl rfl id id fun e he => ?_
    rcases List.mem_cons.mp he with rfl | he
    · rfl
    · exact h₁.noUse e he
  | dropHandle hlt => exact h.setRef (by simp)
  | dropChan =>
    exact h.setChan (fun hr => by simp at hr) fun hf h0 => absurd (hf.symm.trans h0) (by simp)
  | closeChan =>
    exact h.setChan (fun hr => h.rooted _ hr) fun hf h0 => absurd (hf.symm.trans h0) (by simp)
  | @gcHandle p w₁ hlt _ _ hq _ =>
    obtain ⟨_, hsw, hr⟩ := hok
    have hg := hq.view
    have hlis : w₁.listening = true → w.listening = true := by
      obtain ⟨es, f, _⟩ := hq
      intro hl; rw [World.listening, f.stream] at hl; exact hl
    refine (h.quiet hq).finalize (hq.nextPtr ▸ hlt) (fun hs₁ => ?_) fun hr₁ => ?_
    · exact hsw ((swept_iff hi).mp ((Tame.given hg).swept hlis hs₁))
    · exact hr ((Tame.given hg).ref hr₁)
  | @gcChan c hr =>
    refine h.setChan (fun hr' => ?_) fun _ _ x hx hreach => ?_
    · rw [hr] at hr'; simp at hr'
    · exact hok x (hreach.imp (swept_iff hi).mp (due_iff hx))
  | hup hl hw => exact (h.callback hi hl .hup).world hw
  | err hl hw => exact (h.callback hi hl .err).world hw
  | closeBus hw => exact h.close hi hw
  | busDrop _ _ hq => exact h.quiet hq

/-! ### Runs -/

/-- In a run whose steps meet `CollectOk`, nothing finalized is ever used. -/
theorem never_uses_finalized (steps : List Step) (hok : Meets step CollectOk initial steps) :
    Along step NoUse initial steps := by
  refine (hok.along (I := fun w => Inv w ∧ Collected w) (fun w s w' hw hok hs => ?_)
    ⟨Inv.init, Collected.init⟩).mono fun _ hw => hw.2.noUse
  exact ⟨hw.1.step hok.stepOk hs, hw.2.step hw.1 hok hs⟩

theorem never_uses_finalized_closed :
    Along step NoUse initial [.callAsync 0 1, .returned 0, .closeBus] :=
  never_uses_finalized _ fun _ _ => ⟨trivial, fun _ _ => ⟨trivial, fun _ _ => ⟨trivial, trivial⟩⟩⟩

/-- A call whose user drops the handle, and a collection before the bus is closed. -/
def droppedRun : List Step := [.callAsync 0 1, .returned 0, .dropHandle 0, .gcHandle 0, .closeBus]

/-- `closeall_pending` goes through the handle that was finalized. -/
theorem droppedRun_uses : ¬ ∀ steps, Along step NoUse initial steps := by
  intro h
  have hrun : (exec step initial droppedRun).map
      (fun w => decide (.finalizedHandle 0 ∈ w.log)) = some true := by decide +kernel
  obtain ⟨w, hw, hview⟩ := Option.map_eq_some_iff.mp hrun
  have := (h droppedRun).last hw _ (of_decide_eq_true hview)
  simp [Event.use] at this

end JanetSdbus.Async
