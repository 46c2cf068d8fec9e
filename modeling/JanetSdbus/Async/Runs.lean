import JanetSdbus.Async.Invariant

/-! The queue over whole runs.

    The remaining operations (cancelling, finalizing, dropping and closing, and the two that queue a
    new record), the condition `StepOk` each step has to meet, and the result: along a run the queue
    lists exactly the outstanding records, without a use after free, if and only if every step meets
    its condition. -/

namespace JanetSdbus.Async
open Schemes.LinkedList Schemes.Run

variable {w : World} {p : Ptr}

/-! ### Letting go of a slot -/

theorem Inv.release_broken (h : Inv w) (hs : (w.handles p).slot ≠ none) (hr : (w.slots p).refs ≤ 1)
    (hno : ¬ UnlinkOk w p) : Broken (releaseHandle w p) p := by
  obtain ⟨s, hs⟩ := Option.ne_none_iff_exists'.mp hs
  obtain rfl := h.own p s hs
  rw [releaseHandle_eq hs, slotUnref_last (w := w.setHandle s _) hr]
  exact (h.setHandle (Or.inl rfl)).free_broken hno

/-- `sd_bus_slot_set_floating(slot, 0)` gives back the reference of the bus, if it has one. -/
theorem Inv.unfloated (h : Inv w) (hs : (w.handles p).slot = some p) :
    ∃ x : SdBusSlot, slotSetFloating w p false = w.setSlot p x ∧ Inv (w.setSlot p x) ∧
      x.refs + w.busRef p = (w.slots p).refs := by
  have hr := h.refs p
  have hh : w.handleRef p = 1 := by simp [World.handleRef, hs]
  have hb : w.busRef p = ((w.slots p).floating && (w.slots p).connected).toNat := rfl
  rw [slotSetFloating]
  split
  · next hcond =>
    have hb0 : w.busRef p = 0 := by
      rcases hcond with hf | hc
      · simp [World.busRef, hf]
      · simp [World.busRef, hc]
    have hself : w.setSlot p (w.slots p) = w := by
      simp [World.setSlot, Function.update_eq_self]
    exact ⟨w.slots p, hself.symm, hself.symm ▸ h, by omega⟩
  · next hcond =>
    simp only [not_or, Bool.not_eq_false] at hcond
    obtain ⟨hf, hc⟩ := hcond
    have hb1 : w.busRef p = 1 := by simp [World.busRef, hf, hc]
    have h2 : 1 < ((w.setSlot p { w.slots p with floating := false }).slots p).refs := by
      simp only [World.setSlot, Function.update_self]; omega
    refine ⟨{ w.slots p with floating := false, refs := (w.slots p).refs - 1 }, ?_, ?_, ?_⟩
    · simp only [Bool.false_eq_true, if_false]
      rw [slotUnref_more h2]
      simp [World.setSlot]
    · refine h.setSlot ?_ ?_ ?_
      · simp only [Bool.false_and, Bool.toNat_false]; omega
      · simp only; omega
      · intro _; simp only; omega
    · simp only; omega

theorem cfunCancelSlot_none (hs : (w.handles p).slot = none) :
    cfunCancelSlot w p = w.note (.cancelled p) := by
  simp only [cfunCancelSlot, hs, releaseHandle_none hs]

theorem cfunCancelSlot_some {s : Ptr} (hs : (w.handles p).slot = some s) :
    cfunCancelSlot w p = (releaseHandle (slotSetFloating w s false) p).note (.cancelled p) := by
  simp only [cfunCancelSlot, hs]

theorem plain_cancelled (p : Ptr) : ∀ e ∈ [Event.cancelled p], e.plain = true := by
  simp [Event.plain]

theorem Inv.cancel (h : Inv w) (hok : (w.handles p).slot ≠ none →
    (w.slots p).refs ≤ w.busRef p + 1 → UnlinkOk w p) : Inv (cfunCancelSlot w p) := by
  cases hs : (w.handles p).slot with
  | none =>
    rw [cfunCancelSlot_none hs]
    exact h.logged (plain_cancelled p)
  | some s =>
    obtain rfl := h.own p s hs
    obtain ⟨x, he, hi, hsum⟩ := h.unfloated hs
    have hx : ((w.setSlot s x).slots s).refs = x.refs := by simp [World.setSlot]
    rw [cfunCancelSlot_some hs, he]
    refine (hi.release fun _ h1 => ?_).logged (plain_cancelled s)
    exact (h.unlink (hok (by simp [hs]) (by omega))).congr rfl rfl rfl

theorem Inv.cancel_broken (h : Inv w) (hs : (w.handles p).slot ≠ none)
    (hr : (w.slots p).refs ≤ w.busRef p + 1) (hno : ¬ UnlinkOk w p) :
    Broken (cfunCancelSlot w p) p := by
  obtain ⟨s, hs'⟩ := Option.ne_none_iff_exists'.mp hs
  obtain rfl := h.own p s hs'
  obtain ⟨x, he, hi, hsum⟩ := h.unfloated hs'
  have hx : ((w.setSlot s x).slots s).refs = x.refs := by simp [World.setSlot]
  rw [cfunCancelSlot_some hs', he]
  exact (hi.release_broken hs (by omega) hno).logged (plain_cancelled s)

theorem Inv.gc (h : Inv w) (hok : (w.handles p).slot ≠ none → (w.slots p).refs ≤ 1 → UnlinkOk w p) :
    Inv (dbusSlotGc w p) :=
  (h.release fun hs hr => h.unlink (hok hs hr)).setHandle (Or.inr rfl)

theorem Inv.gc_broken (h : Inv w) (hs : (w.handles p).slot ≠ none) (hr : (w.slots p).refs ≤ 1)
    (hno : ¬ UnlinkOk w p) : Broken (dbusSlotGc w p) p :=
  (h.release_broken hs hr hno).setHandle _ _

theorem Inv.disconnect (h : Inv w) (p : Ptr) : Inv (slotDisconnect w p) := by
  have hr := h.refs p
  refine h.setSlot ?_ Iff.rfl ?_
  · simp only [Bool.and_false, Bool.toNat_false]; omega
  · simp

theorem slotDetach_floating (hf : (w.slots p).floating = true)
    (hc : (w.slots p).connected = true) :
    slotDetach w p = slotUnref (slotDisconnect w p) p := by
  simp [slotDetach, hf, hc]

/-- Freeing the bus: a floating slot loses the reference of the bus. -/
theorem Inv.dropped (h : Inv w) (hf : (w.slots p).floating = true)
    (hok : (w.slots p).connected = true → (w.slots p).refs ≤ 1 → UnlinkOk w p) :
    Inv (slotDetach w p) := by
  cases hc : (w.slots p).connected with
  | false => simpa [slotDetach, hc] using h
  | true =>
    have hr := h.refs p
    have hb : w.busRef p = 1 := by simp [World.busRef, hf, hc]
    have hslot : (slotDisconnect w p).slots p
        = { w.slots p with connected := false, awaiting := false } := by
      simp [slotDisconnect, World.setSlot]
    have hb' : (slotDisconnect w p).busRef p = 0 := by simp [World.busRef, hslot]
    have hh : (slotDisconnect w p).handleRef p = w.handleRef p := rfl
    rw [slotDetach_floating hf hc]
    refine (h.disconnect p).unref ?_ fun h1 => ?_
    · rw [hb', hh, hslot]; simp only; omega
    · rw [hslot] at h1
      exact (h.unlink (hok hc (Nat.le_of_eq h1))).congr rfl rfl rfl

theorem Inv.dropped_broken (h : Inv w) (hf : (w.slots p).floating = true)
    (hc : (w.slots p).connected = true) (hr : (w.slots p).refs ≤ 1) (hno : ¬ UnlinkOk w p) :
    Broken (slotDetach w p) p := by
  have h1 : ((slotDisconnect w p).slots p).refs ≤ 1 := by
    simpa [slotDisconnect, World.setSlot] using hr
  rw [slotDetach_floating hf hc, slotUnref_last h1]
  exact (h.disconnect p).free_broken hno

/-! ### Queueing a new record -/

/-- The new record is in place but not linked yet. -/
def startState (w : World) (c : ChanId) (kind : Kind) : World :=
  slotSetFloating (registerSlot (initCallbackState w c kind) w.nextPtr) w.nextPtr true

theorem startAsync_accepted {c : ChanId} {kind : Kind} {rv : ℤ} (hrv : ¬ rv < 0) :
    startAsync w c kind rv =
      .done ((queuePending (startState w c kind) w.nextPtr).note (.queued w.nextPtr)) := by
  simp only [startAsync, hrv, if_false]
  rfl

theorem startState_eq (w : World) (c : ChanId) (kind : Kind) :
    startState w c kind =
      { w with
        heap := Function.update w.heap w.nextPtr
          { slot := some w.nextPtr, chan := c, next := none, prev := none, kind := kind }
        freed := Function.update w.freed w.nextPtr false
        slots := Function.update w.slots w.nextPtr
          { refs := 2, floating := true, connected := true, awaiting := true,
            cookie := w.serial + 1 }
        handles := Function.update w.handles w.nextPtr
          { slot := some w.nextPtr, ref := .callee, finalized := false }
        nextPtr := w.nextPtr + 1
        serial := w.serial + 1 } := by
  simp [startState, slotSetFloating, registerSlot, initCallbackState, World.setSlot,
    World.setHandle]

/-- The heap cell of a record that is not queued can be rewritten. -/
theorem Inv.repr_update (h : Inv w) (hp : p ∉ outstanding w.log) (r : AsyncPending) :
    Repr { head := w.conn.queue,
           next := fun x => (Function.update w.heap p r x).next,
           prev := fun x => (Function.update w.heap p r x).prev } (outstanding w.log) := by
  refine h.repr.congr rfl ?_ ?_
  · intro x hx
    have hxp : x ≠ p := by rintro rfl; exact hp hx
    simp only [Function.update_of_ne hxp]; rfl
  · intro x hx
    have hxp : x ≠ p := by rintro rfl; exact hp hx
    simp only [Function.update_of_ne hxp]; rfl

theorem Inv.nextPtr_notMem (h : Inv w) : w.nextPtr ∉ outstanding w.log :=
  fun hp => Nat.lt_irrefl _ (h.live _ hp).1

theorem Inv.started (h : Inv w) (c : ChanId) (kind : Kind) : Inv (startState w c kind) := by
  have hnew : ∀ x, x ∈ outstanding w.log → x ≠ w.nextPtr := by
    rintro x hx rfl; exact h.nextPtr_notMem hx
  rw [startState_eq]
  refine ⟨h.repr_update h.nextPtr_notMem _, ?_, ?_, ?_, ?_, ?_, ?_, h.noFault⟩
  · intro x hx
    obtain ⟨h₁, h₂⟩ := h.live x hx
    refine ⟨Nat.lt_succ_of_lt h₁, ?_⟩
    simpa [hnew x hx] using h₂
  · intro x s
    by_cases hx : x = w.nextPtr
    · subst hx; simp only [Function.update_self]; exact fun hs => (Option.some.inj hs).symm
    · simp only [Function.update_of_ne hx]; exact h.own x s
  · intro x
    by_cases hx : x = w.nextPtr
    · subst hx; simp [World.handleRef, World.busRef]
    · simpa [World.handleRef, World.busRef, hx] using h.refs x
  · intro x
    by_cases hx : x = w.nextPtr
    · subst hx; simp
    · simpa [hx] using h.alive x
  · intro x hge
    have hx : x ≠ w.nextPtr := Nat.ne_of_gt (Nat.lt_of_succ_le hge)
    simpa [hx] using h.fresh x (Nat.le_of_succ_le hge)
  · intro x hlt
    by_cases hx : x = w.nextPtr
    · subst hx; simp
    · have hlt' : x < w.nextPtr := Nat.lt_of_le_of_ne (Nat.le_of_lt_succ hlt) hx
      simpa [hx] using h.gone x hlt'

theorem Inv.push (h : Inv w) (hp : p ∉ outstanding w.log) (hlt : p < w.nextPtr)
    (hf : w.freed p = false) : Inv ((queuePending w p).note (.queued p)) := by
  have hne : w.conn.queue ≠ some p := by
    intro hq
    have hh : (outstanding w.log).head? = some p := by rw [← h.repr.head_eq]; exact hq
    exact hp (List.mem_of_mem_head? hh)
  have hnone : w.freedOf .queue w.conn.queue.toList = [] := by
    rw [World.freedOf, List.map_eq_nil_iff, List.filter_eq_nil_iff]
    intro x hx hfx
    have hh : (outstanding w.log).head? = some x := by
      rw [← h.repr.head_eq]; exact Option.mem_toList.mp hx
    rw [(h.live x (List.mem_of_mem_head? hh)).2] at hfx
    simp at hfx
  rw [queuePending_eq w p hne, hnone]
  refine ⟨h.repr.push hp, ?_, h.own, h.refs, h.alive, h.fresh, h.gone, ?_⟩
  · intro x hx
    rcases List.mem_cons.mp hx with rfl | hx
    · exact ⟨hlt, hf⟩
    · exact h.live x hx
  · intro x hx
    rcases List.mem_cons.mp hx with hx | hx
    · simp at hx
    · exact h.noFault x hx

/-- `call-async` and `match-async`, accepted or not. -/
theorem Inv.start (h : Inv w) (c : ChanId) (kind : Kind) (rv : ℤ) :
    (startAsync w c kind rv).All Inv := by
  by_cases hrv : rv < 0
  · simp only [startAsync, hrv, if_true]
    refine ⟨h.repr_update h.nextPtr_notMem _, ?_, ?_, ?_, h.alive, ?_, ?_, h.noFault⟩
    · intro x hx
      obtain ⟨h₁, h₂⟩ := h.live x hx
      have hne : x ≠ w.nextPtr := Nat.ne_of_lt h₁
      refine ⟨Nat.lt_succ_of_lt h₁, ?_⟩
      simpa [initCallbackState, hne] using h₂
    · intro x s
      by_cases hx : x = w.nextPtr
      · subst hx; simp [initCallbackState]
      · simp only [initCallbackState, Function.update_of_ne hx]; exact h.own x s
    · intro x
      have hr := h.refs x
      by_cases hx : x = w.nextPtr
      · subst hx
        simp only [initCallbackState, World.handleRef, Function.update_self, World.busRef] at hr ⊢
        simp only [reduceCtorEq, if_false]
        omega
      · simpa [initCallbackState, World.handleRef, World.busRef, hx] using hr
    · intro x hge
      exact h.fresh x (Nat.le_of_succ_le hge)
    · intro x hlt
      by_cases hx : x = w.nextPtr
      · subst hx
        have h0 := h.fresh w.nextPtr (Nat.le_refl _)
        simp [initCallbackState, h0]
      · have hlt' : x < w.nextPtr := Nat.lt_of_le_of_ne (Nat.le_of_lt_succ hlt) hx
        simpa [initCallbackState, hx] using h.gone x hlt'
  · rw [startAsync_accepted hrv]
    have hs := h.started c kind
    have hlog : (startState w c kind).log = w.log := by rw [startState_eq]
    refine hs.push ?_ ?_ ?_
    · rw [hlog]; exact h.nextPtr_notMem
    · rw [startState_eq]; exact Nat.lt_succ_self _
    · rw [startState_eq]; simp

/-! ### Closing -/

theorem Outcome.bind_assoc (o : Outcome) (f g : World → Outcome) :
    (o.bind f).bind g = o.bind fun w => (f w).bind g := by
  cases o <;> rfl

/-- The body of the loop in `closeall_pending`. -/
def closeallVisit (tuple : Tuple) (w : World) (p : Ptr) : Outcome :=
  (channelGive (w.touch .closeall [p]) .closeall p tuple).bind fun w =>
    let w := if (w.handles p).finalized then w.note (.finalizedHandle p) else w
    .done ((releaseHandle w p).touch .closeall [p])

theorem closeallLoop_some (tuple : Tuple) (n : ℕ) (p : Ptr) (w : World) :
    closeallLoop tuple (n + 1) (some p) w =
      (closeallVisit tuple w p).bind fun w' => closeallLoop tuple n (w.heap p).next w' := by
  rw [closeallVisit, Outcome.bind_assoc]
  rfl

/-- What a turn of the loop logs before it releases the handle. -/
def World.closeallLog (w : World) (tuple : Tuple) (p : Ptr) : List Event :=
  (if (w.handles p).finalized then [.finalizedHandle p] else []) ++
    .wrote .closeall p (w.heap p).chan tuple :: (w.chanFault p ++ w.freedOf .closeall [p])

theorem closeallVisit_closed {tuple : Tuple} (hc : (w.chans (w.heap p).chan).closed = true) :
    closeallVisit tuple w p =
      .raised (w.logged (w.chanFault p ++ w.freedOf .closeall [p]))
        "cannot write to closed channel" := by
  have ht : w.touch .closeall [p] = w.logged (w.freedOf .closeall [p]) := rfl
  have hc' : ((w.logged (w.freedOf .closeall [p])).chans
    ((w.logged (w.freedOf .closeall [p])).heap p).chan).closed = true := hc
  rw [closeallVisit, ht, channelGive_eq, if_pos hc', logged_logged]
  rfl

theorem closeallVisit_open {tuple : Tuple} (hc : (w.chans (w.heap p).chan).closed = false) :
    closeallVisit tuple w p =
      .done ((releaseHandle (w.logged (w.closeallLog tuple p)) p).touch .closeall [p]) := by
  have ht : w.touch .closeall [p] = w.logged (w.freedOf .closeall [p]) := rfl
  have hc' : ¬ ((w.logged (w.freedOf .closeall [p])).chans
    ((w.logged (w.freedOf .closeall [p])).heap p).chan).closed = true := by
    simpa [World.logged] using hc
  rw [closeallVisit, ht, channelGive_eq, if_neg hc', logged_logged]
  cases hf : (w.handles p).finalized with
  | false =>
    have he : w.closeallLog tuple p =
        .wrote .closeall p (w.heap p).chan tuple ::
          (w.chanFault p ++ w.freedOf .closeall [p]) := by simp [World.closeallLog, hf]
    have hfin : ((w.logged (.wrote .closeall p (w.heap p).chan tuple ::
        (w.chanFault p ++ w.freedOf .closeall [p]))).handles p).finalized = false := hf
    rw [he]
    simp only [Outcome.bind, List.cons_append]
    rw [if_neg (by simp [hf, World.logged])]
    rfl
  | true =>
    have he : w.closeallLog tuple p = .finalizedHandle p ::
        .wrote .closeall p (w.heap p).chan tuple ::
          (w.chanFault p ++ w.freedOf .closeall [p]) := by simp [World.closeallLog, hf]
    rw [he]
    simp only [Outcome.bind, List.cons_append]
    rw [if_pos (by simp [hf, World.logged])]
    rfl

theorem freedOf_plain {site : Site} (hs : site ≠ .dequeue) (w : World) (ps : List Ptr) :
    ∀ e ∈ w.freedOf site ps, e.plain = true := by
  intro e he
  obtain ⟨p, _, _, rfl⟩ := mem_freedOf.mp he
  simpa [Event.plain] using hs

theorem closeall_ne_dequeue : Site.closeall ≠ .dequeue := by decide

theorem closeallLog_plain (w : World) (tuple : Tuple) (p : Ptr) :
    ∀ e ∈ w.closeallLog tuple p, e.plain = true := by
  have h₁ := chanFault_plain w p
  have h₂ := freedOf_plain closeall_ne_dequeue w [p]
  intro e he
  rcases List.mem_append.mp he with he | he
  · split at he
    · obtain rfl := List.mem_singleton.mp he; rfl
    · simp at he
  rcases List.mem_cons.mp he with rfl | he
  · rfl
  exact plain_append h₂ h₁ e he

/-- One turn of the loop keeps the invariant; it takes out at most the record it visits. -/
theorem Inv.visit (h : Inv w) (tuple : Tuple) (hp : p ∈ outstanding w.log) :
    (closeallVisit tuple w p).All fun w' => Inv w' ∧
      (outstanding w'.log = outstanding w.log ∨
        outstanding w'.log = (outstanding w.log).erase p) := by
  cases hc : (w.chans (w.heap p).chan).closed with
  | true =>
    have hpl := plain_append (freedOf_plain closeall_ne_dequeue w [p]) (chanFault_plain w p)
    rw [closeallVisit_closed hc]
    exact ⟨h.logged hpl, Or.inl (outstanding_plain hpl)⟩
  | false =>
    have hpl := closeallLog_plain w tuple p
    have hi := h.logged hpl
    have ho : outstanding (w.logged (w.closeallLog tuple p)).log = outstanding w.log :=
      outstanding_plain hpl
    obtain ⟨es, he, hes⟩ := touch_eq (w := releaseHandle (w.logged (w.closeallLog tuple p)) p)
      closeall_ne_dequeue [p]
    have hsafe : UnlinkSafe (w.logged (w.closeallLog tuple p)) p :=
      hi.unlink (Or.inl (by rw [hi.queued_eq, ho]; exact hp))
    rw [closeallVisit_open hc, he]
    refine ⟨(hi.release fun _ _ => hsafe).logged hes, ?_⟩
    have hout := hi.outstanding_release p
    rw [ho] at hout
    rwa [World.logged, outstanding_plain hes]

/-- The loop rule. `l` is what is left to visit: `J l` holds before each turn and `J []` at the
    end. The loop ends because the list it walks is the tail of the queue. -/
theorem closeallLoop_ends {tuple : Tuple} {J : List Ptr → World → Prop} {R : World → Prop}
    (hvisit : ∀ p l w, Inv w → (∃ l₁, outstanding w.log = l₁ ++ p :: l) → J (p :: l) w →
      (closeallVisit tuple w p).Ends (J l) R) :
    ∀ {l : List Ptr} {n : ℕ} {w : World}, Inv w → (∃ l₁, outstanding w.log = l₁ ++ l) →
      l.length ≤ n → J l w →
      (closeallLoop tuple n l.head? w).Ends (fun w' => Inv w' ∧ J [] w') fun w' => Inv w' ∧ R w'
  | [], n, w, h, _, _, hJ => by
    have : closeallLoop tuple n none w = .done w := by cases n <;> rfl
    rw [List.head?_nil, this]
    exact ⟨h, hJ⟩
  | p :: l, 0, _, _, _, hn, _ => by simp at hn
  | p :: l, n + 1, w, h, ⟨l₁, ho⟩, hn, hJ => by
    have hr : Repr w.links (l₁ ++ p :: l) := ho ▸ h.repr
    have hnext : (w.heap p).next = l.head? := hr.fields_at.1
    have hp : p ∉ l₁ := fun hx => (List.nodup_append.mp hr.nodup).2.2 p hx p (by simp) rfl
    have hkeep := h.visit tuple (p := p) (by rw [ho]; simp)
    have hJ' := hvisit p l w h ⟨l₁, ho⟩ hJ
    rw [List.head?_cons, closeallLoop_some, hnext]
    cases hv : closeallVisit tuple w p with
    | diverged => rw [hv] at hkeep; exact hkeep
    | raised w' e =>
      rw [hv] at hkeep hJ'
      exact ⟨hkeep.1, hJ'⟩
    | done w' =>
      rw [hv] at hkeep hJ'
      obtain ⟨hi, hout⟩ := hkeep
      refine closeallLoop_ends hvisit hi ?_ (by simpa using hn) hJ'
      rcases hout with hout | hout
      · exact ⟨l₁ ++ [p], by rw [hout, ho]; simp⟩
      · refine ⟨l₁, ?_⟩
        rw [hout, ho, List.erase_append_right _ hp, List.erase_cons_head]

theorem Inv.swept (h : Inv w) : Inv ((w.setQueue none).note .swept) where
  repr := Repr.nil_iff.mpr rfl
  live := by simp [World.note, outstanding]
  own := h.own
  refs := h.refs
  alive := h.alive
  fresh := h.fresh
  gone := h.gone
  noFault := by
    intro x hx
    rcases List.mem_cons.mp hx with hx | hx
    · simp at hx
    · exact h.noFault x hx

/-- `closeall_pending` under the loop rule. -/
theorem closeallPending_ends (tuple : Tuple) {J : List Ptr → World → Prop} {R : World → Prop}
    (hvisit : ∀ p l w, Inv w → (∃ l₁, outstanding w.log = l₁ ++ p :: l) → J (p :: l) w →
      (closeallVisit tuple w p).Ends (J l) R) (h : Inv w) (hJ : J (outstanding w.log) w) :
    (closeallPending w tuple).Ends
      (fun w' => Inv w' ∧ ((w' = w ∧ w.conn.queue = none) ∨
        ∃ w'', Inv w'' ∧ J [] w'' ∧ w' = (w''.setQueue none).note .swept))
      fun w' => Inv w' ∧ R w' := by
  rw [closeallPending]
  split
  · next hq => exact ⟨h, Or.inl ⟨rfl, hq⟩⟩
  · have hlen : (outstanding w.log).length ≤ w.nextPtr := by
      rw [← h.queued_eq]
      exact walk_length _ _ _
    have hhead : w.conn.queue = (outstanding w.log).head? := h.repr.head_eq
    rw [hhead]
    refine (closeallLoop_ends hvisit h ⟨[], rfl⟩ hlen hJ).bind ?_
    rintro w'' _ ⟨hi, hJ'⟩
    exact ⟨hi.swept, Or.inr ⟨w'', hi, hJ', rfl⟩⟩

theorem Inv.closeall (h : Inv w) (tuple : Tuple) : (closeallPending w tuple).All Inv := by
  have hv := closeallPending_ends tuple (J := fun _ _ => True) (R := fun _ => True)
    (fun p l w hi hl _ => ?_) h trivial
  · cases hc : closeallPending w tuple with
    | done w' => rw [hc] at hv; exact hv.1
    | raised w' e => rw [hc] at hv; exact hv.1
    | diverged => rw [hc] at hv; exact hv
  · obtain ⟨l₁, ho⟩ := hl
    have hk := hi.visit tuple (p := p) (by rw [ho]; simp)
    cases hc : closeallVisit tuple w p with
    | diverged => rw [hc] at hk; exact hk
    | _ => trivial

theorem Inv.callback (h : Inv w) (ev : AsyncEvent) : (busCallback w ev).All Inv := by
  have hend : ∀ tuple, ((closeallPending w tuple).bind fun w => .done w.endListener).All Inv :=
    fun tuple => (h.closeall tuple).bind (fun _ _ hi => hi.setConn rfl) (fun _ hi => hi)
  cases ev <;> exact hend _

theorem Inv.close (h : Inv w) : (cfunCloseBus w).All Inv := by
  refine Outcome.All.bind (P := Inv) ?_ (fun _ _ hi => hi.setConn rfl) (fun _ hi => hi)
  rw [closeBusStream]
  split
  · exact h
  · next st _ =>
    refine Outcome.All.bind (P := Inv) ?_ (fun _ _ hi => hi.setConn rfl) (fun _ hi => hi)
    split
    · exact h.callback .close
    · exact h

/-! ### Runs -/

/-- What a step has to meet. Answering a call unlinks its record at once, and so does whatever drops
    the last reference to its slot; either may come after the record has left the queue, and then
    replaying its old links has to be harmless. -/
def StepOk (w : World) : Step → Prop
  | .reply p _ => UnlinkOk w p
  | .installed p m => LastRefused w p m → UnlinkOk w p
  | .cancel p => (w.handles p).slot ≠ none → (w.slots p).refs ≤ w.busRef p + 1 → UnlinkOk w p
  | .gcHandle p => (w.handles p).slot ≠ none → (w.slots p).refs ≤ 1 → UnlinkOk w p
  | .busDrop p => (w.slots p).connected = true → (w.slots p).refs ≤ 1 → UnlinkOk w p
  | _ => True

theorem World.isReply.type {m : Message} (h : w.isReply p m) :
    m.type = .methodReturn ∨ ∃ e, m.type = .methodError e := by
  obtain ⟨_, h₁, h₂, h₃⟩ := h
  cases hm : m.type with
  | methodReturn => exact Or.inl rfl
  | methodError e => exact Or.inr ⟨e, rfl⟩
  | methodCall => exact absurd hm h₁
  | signal => exact absurd hm h₂
  | other => exact absurd hm h₃

theorem World.callable_spec {kind : Kind} (h : w.callable p kind = true) :
    w.conn.bus = true ∧ (w.slots p).connected = true ∧ (w.heap p).kind = kind ∧ p < w.nextPtr := by
  simp only [World.callable, Bool.and_eq_true, decide_eq_true_eq] at h
  exact ⟨h.1.1.1.1, h.1.1.2, h.1.2, h.2⟩

theorem Inv.give (h : Inv w) (p : Ptr) : Inv (returnHandle w p) := by
  obtain ⟨es, he, hes⟩ := touch_eq (w := w) (show Site.caller ≠ .dequeue by decide) [p]
  rw [returnHandle, he]
  refine Inv.setHandle ?_ (Or.inr rfl)
  split
  · have hf : ∀ e ∈ [Event.finalizedHandle p], e.plain = true := by simp [Event.plain]
    exact (h.logged hes).logged hf
  · exact h.logged hes

theorem Inv.step {w' : World} {s : Step} (h : Inv w) (hok : StepOk w s)
    (hs : step w s = some w') : Inv w' := by
  cases s with
  | callAsync c rv =>
    simp only [Async.step, Option.ite_none_right_eq_some] at hs
    exact (h.start c .Call rv).world hs.2
  | matchAsync c rv =>
    simp only [Async.step, Option.ite_none_right_eq_some] at hs
    exact (h.start c .Match rv).world hs.2
  | returned p =>
    simp only [Async.step, Option.ite_none_right_eq_some, Option.some.injEq] at hs
    obtain ⟨_, rfl⟩ := hs
    exact h.give p
  | reply p m =>
    simp only [Async.step, Option.ite_none_right_eq_some] at hs
    obtain ⟨⟨hc, _, hm⟩, hs⟩ := hs
    obtain ⟨_, hconn, hk, _⟩ := World.callable_spec hc
    exact (h.reply hk hconn hm.type hok).world hs
  | matched p m =>
    simp only [Async.step, Option.ite_none_right_eq_some] at hs
    obtain ⟨hc, hs⟩ := hs
    obtain ⟨_, hconn, hk, _⟩ := World.callable_spec hc
    exact (h.matched hk hconn).world hs
  | installed p m =>
    simp only [Async.step, Option.ite_none_right_eq_some] at hs
    obtain ⟨⟨hc, _, hm⟩, hs⟩ := hs
    exact (h.installed (World.callable_spec hc).2.1 hok).world hs
  | cancel p =>
    simp only [Async.step, Option.ite_none_right_eq_some, Option.some.injEq] at hs
    obtain ⟨_, rfl⟩ := hs
    exact h.cancel hok
  | dropHandle p =>
    simp only [Async.step, Option.ite_none_right_eq_some, Option.some.injEq] at hs
    obtain ⟨_, rfl⟩ := hs
    exact h.setHandle (Or.inr rfl)
  | dropChan c =>
    simp only [Async.step, Option.some.injEq] at hs
    subst hs
    exact h.setChans _
  | closeChan c =>
    simp only [Async.step, Option.ite_none_right_eq_some, Option.some.injEq] at hs
    obtain ⟨_, rfl⟩ := hs
    exact h.setChans _
  | gcHandle p =>
    simp only [Async.step, Option.ite_none_right_eq_some, Option.some.injEq] at hs
    obtain ⟨_, rfl⟩ := hs
    exact h.gc hok
  | gcChan c =>
    simp only [Async.step, Option.ite_none_right_eq_some, Option.some.injEq] at hs
    obtain ⟨_, rfl⟩ := hs
    exact h.setChans _
  | hup =>
    simp only [Async.step, Option.ite_none_right_eq_some] at hs
    exact (h.callback .hup).world hs.2
  | err =>
    simp only [Async.step, Option.ite_none_right_eq_some] at hs
    exact (h.callback .err).world hs.2
  | closeBus => exact h.close.world hs
  | busDrop p =>
    simp only [Async.step, Option.ite_none_right_eq_some, Option.some.injEq] at hs
    obtain ⟨⟨_, hf, _⟩, rfl⟩ := hs
    exact h.dropped hf hok

/-- A step that does not meet its condition loses the queue. -/
theorem Inv.step_broken {w' : World} {s : Step} (h : Inv w) (hno : ¬ StepOk w s)
    (hs : Async.step w s = some w') : ¬ QueueOk w' := by
  cases s with
  | reply p m =>
    simp only [Async.step, Option.ite_none_right_eq_some] at hs
    obtain ⟨⟨hc, _, hm⟩, hs⟩ := hs
    obtain ⟨_, hconn, hk, _⟩ := World.callable_spec hc
    exact ((h.reply_broken hk hconn hm.type hno).world hs).bad
  | installed p m =>
    simp only [Async.step, Option.ite_none_right_eq_some] at hs
    obtain ⟨⟨hc, _, hm⟩, hs⟩ := hs
    simp only [StepOk, Classical.not_imp] at hno
    obtain ⟨w'', he, hb⟩ := h.installed_broken (World.callable_spec hc).2.1 hno.1 hno.2
    rw [he] at hs
    obtain rfl := Option.some.inj hs
    exact hb.bad
  | cancel p =>
    simp only [Async.step, Option.ite_none_right_eq_some, Option.some.injEq] at hs
    obtain ⟨_, rfl⟩ := hs
    simp only [StepOk, Classical.not_imp] at hno
    exact (h.cancel_broken hno.1 hno.2.1 hno.2.2).bad
  | gcHandle p =>
    simp only [Async.step, Option.ite_none_right_eq_some, Option.some.injEq] at hs
    obtain ⟨_, rfl⟩ := hs
    simp only [StepOk, Classical.not_imp] at hno
    exact (h.gc_broken hno.1 hno.2.1 hno.2.2).bad
  | busDrop p =>
    simp only [Async.step, Option.ite_none_right_eq_some, Option.some.injEq] at hs
    obtain ⟨⟨_, hf, _⟩, rfl⟩ := hs
    simp only [StepOk, Classical.not_imp] at hno
    exact (h.dropped_broken hf hno.1 hno.2.1 hno.2.2).bad
  | _ => exact absurd trivial hno

/-- Along a run the queue is a well-formed list of exactly the outstanding records, and no unlink
    touches a freed one, exactly when no record is unlinked again at a moment when its old
    neighbours have changed. -/
theorem queue_ok_iff (steps : List Step) :
    Along step QueueOk initial steps ↔ Meets step StepOk initial steps :=
  along_iff_meets (fun _ h => h.queueOk) (fun _ _ _ h hok hs => h.step hok hs)
    (fun _ _ _ h hno hs => h.step_broken hno hs) Inv.init

/-- Two calls, the second one answered; a third call; then the handle of the second is cancelled. -/
def lostRun : List Step :=
  [.callAsync 0 1, .returned 0, .callAsync 1 1, .returned 1,
    .reply 1 { type := .methodReturn, replyCookie := some 2 }, .callAsync 2 1, .cancel 1]

/-- The cancel replays the links record 1 had before record 2 was queued in front. -/
theorem lostRun_lost : ¬ Along step QueueOk initial lostRun := by
  intro h
  have hrun : (exec step initial lostRun).map
      (fun w => (w.conn.queue, (w.heap 0).next, outstanding w.log)) = some (some 0, none, [2, 0]) := by
    decide +kernel
  obtain ⟨w, hw, hview⟩ := Option.map_eq_some_iff.mp hrun
  obtain ⟨⟨q, hr, hm⟩, _⟩ := h.last hw
  obtain ⟨hq, hn, ho⟩ : w.conn.queue = some 0 ∧ (w.heap 0).next = none ∧
      outstanding w.log = [2, 0] := by simpa using hview
  have hsingle : q = [0] := hr.eq_singleton hq hn
  have : 2 ∈ q := (hm 2).mpr (by simp [ho])
  simp [hsingle] at this

end JanetSdbus.Async
