import JanetSdbus.Async.Queue

/-! Every step keeps the queue invariant, or loses the queue for good.

    One lemma for each operation of `Conn`: what it does to a state that satisfies `Inv`, and, where
    it may unlink a record that has already left the queue, what it leaves when that unlink is not
    harmless. The claim about runs follows from the run rules of `Schemes.Run`. -/

namespace JanetSdbus.Async
open Schemes.LinkedList Schemes.Run

/-- A C function comes out: normally in a state with `D`, or raising in a state with `R`. -/
def Outcome.Ends (D R : World → Prop) : Outcome → Prop
  | .done w => D w
  | .raised w _ => R w
  | .diverged => False

/-- Both ways out satisfy `P`. -/
def Outcome.All (P : World → Prop) (o : Outcome) : Prop := o.Ends P P

theorem Outcome.Ends.bind {D R D' : World → Prop} {o : Outcome} {f : World → Outcome}
    (h : o.Ends D R) (hd : ∀ w, o = .done w → D w → (f w).Ends D' R) : (o.bind f).Ends D' R := by
  cases o with
  | done w => exact hd w rfl h
  | raised w e => exact h
  | diverged => exact h

theorem Outcome.All.bind {P Q : World → Prop} {o : Outcome} {f : World → Outcome} (h : o.All P)
    (hd : ∀ w, o = .done w → P w → (f w).All Q) (hr : ∀ w, P w → Q w) : (o.bind f).All Q := by
  cases o with
  | done w => exact hd w rfl h
  | raised w e => exact hr w h
  | diverged => exact h

theorem Outcome.All.mono {P Q : World → Prop} {o : Outcome} (h : o.All P) (hi : ∀ w, P w → Q w) :
    o.All Q := by
  cases o with
  | done w => exact hi w h
  | raised w e => exact hi w h
  | diverged => exact h

theorem Outcome.All.world {P : World → Prop} {o : Outcome} (h : o.All P) {w : World}
    (hw : o.world? = some w) : P w := by
  cases o with
  | done w' => obtain rfl := Option.some.inj hw; exact h
  | raised w' e => obtain rfl := Option.some.inj hw; exact h
  | diverged => exact absurd h id

theorem Outcome.Ends.dispatched {D R R' : World → Prop} {o : Outcome} (h : o.Ends D R)
    (hr : ∀ w, R w → R' w.makeBusy) : o.dispatched.Ends D R' := by
  cases o with
  | done w => exact h
  | raised w e => exact hr w h
  | diverged => exact h

theorem Outcome.All.dispatched {P : World → Prop} {o : Outcome} (h : o.All P) (hr : ∀ w, P w → P w.makeBusy) :
    o.dispatched.All P := Outcome.Ends.dispatched h hr

theorem Outcome.dispatched_done {o : Outcome} {w : World} : o.dispatched = .done w ↔ o = .done w := by
  cases o <;> simp [Outcome.dispatched]

/-- That sd-bus is busy says nothing about the queue. -/
theorem Inv.makeBusy {w : World} (h : Inv w) : Inv w.makeBusy :=
  ⟨h.repr, h.live, h.own, h.refs, h.alive, h.fresh, h.gone, h.noFault⟩

/-! ### Broken queues stay broken -/

theorem Broken.logged {w : World} {p : Ptr} (h : Broken w p) {es : List Event}
    (hes : ∀ e ∈ es, e.plain = true) : Broken (w.logged es) p :=
  h.transfer rfl (fun e he => by simp [World.logged, he]) (outstanding_plain hes)

theorem Broken.makeBusy {w : World} {p : Ptr} (h : Broken w p) : Broken w.makeBusy p :=
  h.transfer rfl (fun _ he => he) rfl

theorem Broken.setSlot {w : World} {p : Ptr} (h : Broken w p) (s : Ptr) (x : SdBusSlot) :
    Broken (w.setSlot s x) p :=
  h.transfer rfl (fun _ he => he) rfl

theorem Broken.setHandle {w : World} {p : Ptr} (h : Broken w p) (q : Ptr) (x : Handle) :
    Broken (w.setHandle q x) p :=
  h.transfer rfl (fun _ he => he) rfl

/-- Destroying the record whose unlink broke the queue replays that unlink. -/
theorem Broken.free {w : World} {p : Ptr} (h : Broken w p) : Broken (slotFree w p) p :=
  h.transfer (by rw [slotFree_links, h.again]) (fun e he => by rw [slotFree_log]; simp [he])
    (by rw [outstanding_slotFree, List.erase_of_not_mem h.out])

theorem Broken.unref {w : World} {p : Ptr} (h : Broken w p) : Broken (slotUnref w p) p := by
  by_cases h1 : (w.slots p).refs ≤ 1
  · rw [slotUnref_last h1]; exact h.free
  · rw [slotUnref_more (by omega)]; exact h.setSlot _ _

theorem Broken.detach {w : World} {p : Ptr} (h : Broken w p) : Broken (slotDetach w p) p := by
  rw [slotDetach]
  split
  · have hd : Broken (slotDisconnect w p) p := h.setSlot _ _
    simp only
    split
    · exact hd.unref
    · exact hd
  · exact h

/-- A forbidden last unref. -/
theorem Inv.free_broken {w : World} (h : Inv w) {p : Ptr} (hno : ¬ UnlinkOk w p) :
    Broken (slotFree w p) p := by
  refine h.dequeue_broken hno ?_ (slotFree_links w p) (slotFree_log w p)
  rw [outstanding, outstanding_dequeueLog]

/-! ### Slots and handles -/

/-- While sd-bus holds an extra reference, detaching only rewrites the slot. -/
theorem slotDetach_extra {w : World} {p : Ptr}
    (hr : w.handleRef p + w.busRef p < (w.slots p).refs) :
    ∃ x : SdBusSlot, slotDetach w p = w.setSlot p x ∧ w.handleRef p < x.refs ∧
      x.refs + w.busRef p = (w.slots p).refs ∧ (x.floating && x.connected) = false ∧
      x.connected = false := by
  rw [slotDetach]
  cases hc : (w.slots p).connected with
  | false =>
    refine ⟨w.slots p, ?_, by omega, ?_, by simp [hc], hc⟩
    · simp [World.setSlot, Function.update_eq_self]
    · simp [World.busRef, hc]
  | true =>
    cases hf : (w.slots p).floating with
    | false =>
      refine ⟨{ w.slots p with connected := false, awaiting := false }, ?_, ?_, ?_, by simp, rfl⟩
      · simp [slotDisconnect, hf]
      · simp only; omega
      · simp [World.busRef, hf]
    | true =>
      have hb : w.busRef p = 1 := by simp [World.busRef, hc, hf]
      refine ⟨{ w.slots p with
        connected := false, awaiting := false, refs := (w.slots p).refs - 1 }, ?_, ?_, ?_, by simp,
        rfl⟩
      · have h2 : 1 < ((slotDisconnect w p).slots p).refs := by
          simp only [slotDisconnect, World.setSlot, Function.update_self]; omega
        simp only [if_true]
        rw [slotUnref_more h2]
        simp [slotDisconnect, World.setSlot, hf]
      · simp only; omega
      · simp only; omega

theorem slotFree_setHandle (w : World) (p q : Ptr) (x : Handle) :
    slotFree (w.setHandle q x) p = (slotFree w p).setHandle q x := by
  simp only [slotFree, destroyCallCallback, dequeuePending_eq']
  rfl

theorem slotUnref_setHandle (w : World) (p q : Ptr) (x : Handle) :
    slotUnref (w.setHandle q x) p = (slotUnref w p).setHandle q x := by
  by_cases h1 : (w.slots p).refs ≤ 1
  · rw [slotUnref_last h1, slotUnref_last (w := w.setHandle q x) h1, slotFree_setHandle]
  · have hm : 1 < ((w.setHandle q x).slots p).refs := Nat.lt_of_not_le h1
    rw [slotUnref_more hm, slotUnref_more (Nat.lt_of_not_le h1)]
    rfl

theorem slotUnref_handles (w : World) (p : Ptr) : (slotUnref w p).handles = w.handles := by
  by_cases h1 : (w.slots p).refs ≤ 1
  · rw [slotUnref_last h1]; exact (destroy_frame _ p).2.1
  · rw [slotUnref_more (by omega)]; rfl

/-- `unrefp` and the NULL after it commute: the handle lets go first, then the slot is unref'ed. -/
theorem releaseHandle_eq {w : World} {p : Ptr} (h : (w.handles p).slot = some p) :
    releaseHandle w p = slotUnref (w.setHandle p { w.handles p with slot := none }) p := by
  rw [slotUnref_setHandle]
  simp only [releaseHandle, h, slotUnref_handles]

theorem releaseHandle_none {w : World} {p : Ptr} (h : (w.handles p).slot = none) :
    releaseHandle w p = w := by
  simp only [releaseHandle, h, World.setHandle]
  have : ({ slot := none, ref := (w.handles p).ref, finalized := (w.handles p).finalized } : Handle)
      = w.handles p := by rw [← h]
  rw [this, Function.update_eq_self]

theorem Inv.release {w : World} (h : Inv w) {p : Ptr}
    (hok : (w.handles p).slot ≠ none → (w.slots p).refs ≤ 1 → UnlinkSafe w p) :
    Inv (releaseHandle w p) := by
  cases hs : (w.handles p).slot with
  | none => rw [releaseHandle_none hs]; exact h
  | some s =>
    obtain rfl := h.own p s hs
    rw [releaseHandle_eq hs]
    have hi := h.setHandle (p := s) (x := { w.handles s with slot := none }) (Or.inl rfl)
    have h0 : (w.setHandle s { w.handles s with slot := none }).handleRef s = 0 := by
      simp [World.handleRef, World.setHandle]
    have hb : (w.setHandle s { w.handles s with slot := none }).busRef s = w.busRef s := rfl
    have hr := h.refs s
    have h1 : w.handleRef s = 1 := by simp [World.handleRef, hs]
    refine hi.unref ?_ ?_
    · have hsl : ((w.setHandle s { w.handles s with slot := none }).slots s).refs
          = (w.slots s).refs := rfl
      omega
    · intro h1
      exact (hok (by simp [hs]) (Nat.le_of_eq h1)).congr rfl rfl rfl

theorem outstanding_slotUnref (w : World) (p : Ptr) :
    outstanding (slotUnref w p).log = outstanding w.log ∨
      outstanding (slotUnref w p).log = (outstanding w.log).erase p := by
  by_cases h1 : (w.slots p).refs ≤ 1
  · rw [slotUnref_last h1]; exact Or.inr (outstanding_slotFree w p)
  · rw [slotUnref_more (by omega)]; exact Or.inl rfl

theorem Inv.outstanding_release {w : World} (h : Inv w) (p : Ptr) :
    outstanding (releaseHandle w p).log = outstanding w.log ∨
      outstanding (releaseHandle w p).log = (outstanding w.log).erase p := by
  cases hs : (w.handles p).slot with
  | none => rw [releaseHandle_none hs]; exact Or.inl rfl
  | some s =>
    obtain rfl := h.own p s hs
    rw [releaseHandle_eq hs]
    exact outstanding_slotUnref _ s

/-! ### Callbacks -/

/-- The use of a finalized channel, if that is what record `p` points to. -/
def World.chanFault (w : World) (p : Ptr) : List Event :=
  if (w.chans (w.heap p).chan).finalized then [.finalizedChan (w.heap p).chan] else []

theorem chanFault_plain (w : World) (p : Ptr) : ∀ e ∈ w.chanFault p, e.plain = true := by
  intro e he
  rw [World.chanFault] at he
  split at he <;> simp_all [Event.plain]

theorem channelGive_eq (w : World) (src : Source) (p : Ptr) (t : Tuple) :
    channelGive w src p t =
      if (w.chans (w.heap p).chan).closed then
        .raised (w.logged (w.chanFault p)) "cannot write to closed channel"
      else .done (w.logged (.wrote src p (w.heap p).chan t :: w.chanFault p)) := by
  rw [channelGive, World.chanFault]
  cases hf : (w.chans (w.heap p).chan).finalized <;>
    cases hc : (w.chans (w.heap p).chan).closed <;> simp [World.note, World.logged, hc]

/-- `janet_channel_give` only logs. -/
theorem channelGive_all {w : World} {src : Source} {p : Ptr} {t : Tuple} {P : World → Prop}
    (h : ∀ es : List Event, (∀ e ∈ es, e.plain = true) → P (w.logged es)) :
    (channelGive w src p t).All P := by
  have hp := chanFault_plain w p
  rw [channelGive_eq]
  split
  · exact h _ hp
  · refine h _ fun e he => ?_
    rcases List.mem_cons.mp he with rfl | he
    · rfl
    · exact hp e he

theorem logged_logged (w : World) (es es' : List Event) :
    (w.logged es).logged es' = w.logged (es' ++ es) := by simp [World.logged]

theorem plain_append {es es' : List Event} (h : ∀ e ∈ es, e.plain = true)
    (h' : ∀ e ∈ es', e.plain = true) : ∀ e ∈ es' ++ es, e.plain = true := by
  intro e he
  rcases List.mem_append.mp he with he | he
  · exact h' e he
  · exact h e he

theorem handler_ne_dequeue : Site.handler ≠ .dequeue := by decide

/-- Unlink an answered call. -/
def answer (w : World) (p : Ptr) : World := (dequeuePending w p).note (.answered p)

theorem answer_eq (w : World) (p : Ptr) :
    answer w p = (w.withLinks (w.links.unlink p) (w.dequeueLog p)).note (.answered p) := by
  rw [answer, dequeuePending_eq']

theorem outstanding_answer (w : World) (p : Ptr) :
    outstanding (answer w p).log = (outstanding w.log).erase p := by
  rw [answer_eq]
  show outstanding (.answered p :: (w.dequeueLog p ++ w.log)) = _
  rw [outstanding, outstanding_dequeueLog]

theorem Inv.answered {w : World} (h : Inv w) {p : Ptr} (hok : UnlinkSafe w p) : Inv (answer w p) where
  repr := by rw [outstanding_answer, answer_eq]; exact hok.seq
  live := by
    rw [outstanding_answer, answer_eq]
    exact fun x hx => h.live x (List.mem_of_mem_erase hx)
  own := by rw [answer_eq]; exact h.own
  refs := by rw [answer_eq]; exact h.refs
  alive := by rw [answer_eq]; exact h.alive
  fresh := by rw [answer_eq]; exact h.fresh
  gone := by rw [answer_eq]; exact h.gone
  noFault := by
    intro x hx
    rw [answer_eq] at hx
    rcases List.mem_cons.mp hx with hx | hx
    · simp at hx
    rcases List.mem_append.mp hx with hx | hx
    · exact hok.fault x hx
    · exact h.noFault x hx

/-- Unlinking an answered call again, at once, is harmless. -/
theorem UnlinkSafe.answered {w : World} (h : Inv w) {p : Ptr} (hok : UnlinkSafe w p) :
    UnlinkSafe (answer w p) p := by
  have hl : (answer w p).links = w.links.unlink p := by rw [answer_eq]; rfl
  have hf : (answer w p).freed = w.freed := by rw [answer_eq]; rfl
  refine ⟨?_, ?_⟩
  · have hn : p ∉ (outstanding w.log).erase p := h.repr.nodup.not_mem_erase
    rw [hl, unlink_unlink, outstanding_answer, List.erase_of_not_mem hn]
    exact hok.seq
  · intro x hx
    obtain ⟨hn, hv⟩ := unlink_self w.links p
    have hd : (answer w p).dequeueSet p = w.dequeueSet p := by
      have hn' : ((answer w p).heap p).next = (w.heap p).next := by
        have : (answer w p).links.next p = w.links.next p := by rw [hl]; exact hn
        exact this
      have hv' : ((answer w p).heap p).prev = (w.heap p).prev := by
        have : (answer w p).links.prev p = w.links.prev p := by rw [hl]; exact hv
        exact this
      simp only [World.dequeueSet, hn', hv']
    rw [World.dequeueLog] at hx
    split at hx
    · simp at hx
    · next hq =>
      have hq₀ : w.conn.queue ≠ none := by
        intro h0
        apply hq
        have hh : w.links.head = none := h0
        have : (answer w p).links.head = none := by
          rw [hl, Links.unlink, if_pos hh, hh]
        exact this
      apply hok.fault x
      rw [World.dequeueLog, if_neg hq₀]
      rw [World.freedOf, hf, hd] at hx
      exact hx

theorem Inv.answered_broken {w : World} (h : Inv w) {p : Ptr} (hno : ¬ UnlinkOk w p) :
    Broken (answer w p) p := by
  refine h.dequeue_broken hno ?_ (by rw [answer_eq]; rfl) (by rw [answer_eq]; rfl)
  rw [outstanding, outstanding_dequeueLog]

/-- A reply to a call: some log entries, the unlink, some more log entries. -/
theorem messageHandler_call {w : World} {p : Ptr} {m : Message} {P : World → Prop}
    (hk : (w.heap p).kind = .Call) (hm : m.type = .methodReturn ∨ ∃ e, m.type = .methodError e)
    (h : ∀ es es' : List Event, (∀ e ∈ es, e.plain = true) → (∀ e ∈ es', e.plain = true) →
      P ((answer (w.logged es) p).logged es')) : (messageHandler w p m).All P := by
  obtain ⟨es, he, hes⟩ := touch_eq (w := w) handler_ne_dequeue [p]
  have hk' : ((w.logged es).heap p).kind = .Call := hk
  rw [messageHandler]
  rcases hm with hm | ⟨e, hm⟩
  · simp only [he, hm, hk', if_true]
    exact channelGive_all fun es' hes' => h es es' hes hes'
  · simp only [he, hm, hk', if_true]
    exact channelGive_all fun es' hes' => h es es' hes hes'

/-- A match never unlinks its record. -/
theorem messageHandler_match {w : World} {p : Ptr} {m : Message} {P : World → Prop}
    (hk : (w.heap p).kind = .Match)
    (h : ∀ es : List Event, (∀ e ∈ es, e.plain = true) → P (w.logged es)) :
    (messageHandler w p m).All P := by
  obtain ⟨es, he, hes⟩ := touch_eq (w := w) handler_ne_dequeue [p]
  have hk' : ((w.logged es).heap p).kind = .Match := hk
  have hmore : ∀ es' : List Event, (∀ e ∈ es', e.plain = true) → P ((w.logged es).logged es') := by
    intro es' hes'
    rw [logged_logged]
    exact h _ (plain_append hes hes')
  rw [messageHandler]
  cases hm : m.type with
  | methodReturn => simpa [he, hm, hk'] using channelGive_all hmore
  | methodCall => simpa [he, hm, hk'] using channelGive_all hmore
  | signal => simpa [he, hm, hk'] using channelGive_all hmore
  | methodError e => simpa [he, hm, hk'] using channelGive_all hmore
  | other => simpa [he, hm, hk', Outcome.All, Outcome.Ends] using h es hes

theorem signalInstallHandler_all {w : World} {p : Ptr} {m : Message} {P : World → Prop}
    (h : ∀ es : List Event, (∀ e ∈ es, e.plain = true) → P (w.logged es)) :
    (signalInstallHandler w p m).All P := by
  obtain ⟨es, he, hes⟩ := touch_eq (w := w) handler_ne_dequeue [p]
  rw [signalInstallHandler]
  cases hm : m.type with
  | methodError e =>
    simp only [he]
    refine channelGive_all fun es' hes' => ?_
    rw [logged_logged]
    exact h _ (plain_append hes hes')
  | methodCall => simpa [he, hm, Outcome.All, Outcome.Ends] using h es hes
  | methodReturn => simpa [he, hm, Outcome.All, Outcome.Ends] using h es hes
  | signal => simpa [he, hm, Outcome.All, Outcome.Ends] using h es hes
  | other => simpa [he, hm, Outcome.All, Outcome.Ends] using h es hes

/-! ### Dispatch -/

/-- sd-bus holds a reference to slot `p` that is neither the handle's nor the bus's. -/
def Extra (w : World) (p : Ptr) : Prop := w.handleRef p + w.busRef p < (w.slots p).refs

theorem Inv.ref {w : World} (h : Inv w) {p : Ptr} (hc : (w.slots p).connected = true) :
    Inv (slotRef w p) ∧ Extra (slotRef w p) p := by
  have hr := h.refs p
  have ha := h.alive p hc
  have hb : w.busRef p = ((w.slots p).floating && (w.slots p).connected).toNat := rfl
  refine ⟨h.setSlot ?_ ?_ ?_, ?_⟩
  · simp only; omega
  · simp only; omega
  · intro _; simp only; omega
  · have hs : ((slotRef w p).slots p).refs = (w.slots p).refs + 1 := by
      simp [slotRef, World.setSlot]
    have hb' : (slotRef w p).busRef p = w.busRef p := by
      simp [slotRef, World.setSlot, World.busRef]
    have hh : (slotRef w p).handleRef p = w.handleRef p := rfl
    rw [Extra, hs, hb', hh]; omega

theorem slotEnter_slot (w : World) (p : Ptr) :
    (slotEnter w p).slots p = { w.slots p with awaiting := false, refs := (w.slots p).refs + 1 } := by
  simp [slotEnter, slotRef, World.setSlot]

theorem Inv.enter {w : World} (h : Inv w) {p : Ptr} (hc : (w.slots p).connected = true) :
    Inv (slotEnter w p) ∧ Extra (slotEnter w p) p := by
  have hi : Inv (w.setSlot p { w.slots p with awaiting := false }) :=
    h.setSlot (h.refs p) Iff.rfl (h.alive p)
  exact hi.ref (by simpa [World.setSlot] using hc)

/-- After a callback a floating slot is detached; that leaves a rewritten slot without bus. -/
theorem Inv.detached {w : World} (h : Inv w) {p : Ptr} (hx : Extra w p) :
    ∃ x : SdBusSlot, slotDetach w p = w.setSlot p x ∧ Inv (w.setSlot p x) ∧
      Extra (w.setSlot p x) p ∧ ((w.setSlot p x).slots p).refs + w.busRef p = (w.slots p).refs := by
  obtain ⟨x, he, hlt, hsum, hfc, hc⟩ := slotDetach_extra hx
  have hs : (w.setSlot p x).slots p = x := Function.update_self _ _ _
  refine ⟨x, he, ?_, ?_, by rw [hs]; exact hsum⟩
  · refine h.setSlot ?_ ?_ ?_
    · rw [hfc]; simp only [Bool.toNat_false]; omega
    · omega
    · rw [hc]; simp
  · have hb : (w.setSlot p x).busRef p = 0 := by rw [World.busRef, hs, hfc]; rfl
    have hh : (w.setSlot p x).handleRef p = w.handleRef p := rfl
    rw [Extra, hb, hh, hs]; omega

/-- ... and then sd-bus drops its own reference. -/
theorem Inv.finish {w : World} (h : Inv w) {p : Ptr} (hx : Extra w p)
    (hok : (w.slots p).refs = w.busRef p + 1 → UnlinkSafe w p) :
    Inv (slotUnref (slotDetach w p) p) := by
  obtain ⟨x, he, hi, hx', hsum⟩ := h.detached hx
  rw [he]
  exact hi.unref hx' fun h1 => (hok (by omega)).congr rfl rfl rfl

theorem Inv.finish_broken {w : World} (h : Inv w) {p : Ptr} (hx : Extra w p)
    (hlast : (w.slots p).refs = w.busRef p + 1) (hno : ¬ UnlinkOk w p) :
    Broken (slotUnref (slotDetach w p) p) p := by
  obtain ⟨x, he, hi, hx', hsum⟩ := h.detached hx
  rw [he, slotUnref_last (by omega)]
  exact hi.free_broken hno

theorem Extra.answered {w : World} {p : Ptr} (h : Extra w p) : Extra (answer w p) p := by
  rw [answer_eq]; exact h

theorem Inv.reply {w : World} (h : Inv w) {p : Ptr} {m : Message}
    (hk : (w.heap p).kind = .Call) (hc : (w.slots p).connected = true)
    (hm : m.type = .methodReturn ∨ ∃ e, m.type = .methodError e) (hok : UnlinkOk w p) :
    (processReply w p m).All Inv := by
  obtain ⟨hi, hx⟩ := h.enter hc
  have hsafe : UnlinkSafe (slotEnter w p) p := (h.unlink hok).congr rfl rfl rfl
  refine Outcome.All.dispatched (Outcome.All.bind (P := fun w' => Inv w' ∧ UnlinkSafe w' p ∧ Extra w' p)
    (messageHandler_call hk hm fun es es' hes hes' => ?_) ?_ (fun w' h' => h'.1)) fun _ => Inv.makeBusy
  · have hs₁ : UnlinkSafe ((slotEnter w p).logged es) p :=
      hsafe.congr rfl rfl (outstanding_plain hes)
    have hi₁ := hi.logged hes
    have hx₁ : Extra ((slotEnter w p).logged es) p := hx
    exact ⟨(hi₁.answered hs₁).logged hes',
      (hs₁.answered hi₁).congr rfl rfl (outstanding_plain hes'), hx₁.answered⟩
  · rintro w' _ ⟨h₁, h₂, h₃⟩
    exact h₁.finish h₃ fun _ => h₂

theorem Inv.reply_broken {w : World} (h : Inv w) {p : Ptr} {m : Message}
    (hk : (w.heap p).kind = .Call) (hc : (w.slots p).connected = true)
    (hm : m.type = .methodReturn ∨ ∃ e, m.type = .methodError e) (hno : ¬ UnlinkOk w p) :
    (processReply w p m).All fun w' => Broken w' p := by
  obtain ⟨hi, _⟩ := h.enter hc
  refine Outcome.All.dispatched (Outcome.All.bind (messageHandler_call hk hm fun es es' hes hes' => ?_)
    (fun w' _ (hb : Broken w' p) => hb.detach.unref) (fun _ h' => h')) fun _ => Broken.makeBusy
  exact ((hi.logged hes).answered_broken hno).logged hes'

theorem Inv.matched {w : World} (h : Inv w) {p : Ptr} {m : Message}
    (hk : (w.heap p).kind = .Match) (hc : (w.slots p).connected = true) :
    (processMatch w p m).All Inv := by
  obtain ⟨hi, hx⟩ := h.ref hc
  have ha := h.alive p hc
  have hrefs : ((slotRef w p).slots p).refs = (w.slots p).refs + 1 := by
    simp [slotRef, World.setSlot]
  refine Outcome.All.dispatched (Outcome.All.bind (P := fun w' => Inv w' ∧ Extra w' p ∧ 1 < (w'.slots p).refs)
    (messageHandler_match hk fun es hes => ⟨hi.logged hes, hx, ?_⟩) ?_ (fun _ h' => h'.1)) fun _ => Inv.makeBusy
  · show 1 < ((slotRef w p).slots p).refs
    omega
  · rintro w' _ ⟨h₁, h₂, h₃⟩
    exact h₁.unref h₂ fun h => absurd h (by omega)

/-- A refused match leaves `signal_install_handler` normally only if its channel took the error. -/
theorem signalInstallHandler_done {w w' : World} {p : Ptr} {m : Message} {e : BusError}
    (hm : m.type = .methodError e) (h : signalInstallHandler w p m = .done w') :
    (w.chans (w.heap p).chan).closed = false := by
  rw [signalInstallHandler] at h
  simp only [hm] at h
  rw [channelGive_eq] at h
  cases hc : (w.chans (w.heap p).chan).closed with
  | false => rfl
  | true => simp [World.touch, hc] at h

/-- The bus's reference is the last one a refused match has, and its channel takes the error. -/
structure LastRefused (w : World) (p : Ptr) (m : Message) : Prop where
  refused : ∃ e, m.type = .methodError e
  opened : (w.chans (w.heap p).chan).closed = false
  floating : (w.slots p).floating = true
  last : (w.slots p).refs = 1

theorem Inv.installed {w : World} (h : Inv w) {p : Ptr} {m : Message}
    (hc : (w.slots p).connected = true) (hok : LastRefused w p m → UnlinkOk w p) :
    (processInstall w p m).All Inv := by
  obtain ⟨hi, hx⟩ := h.enter hc
  have ha := h.alive p hc
  have hslot := slotEnter_slot w p
  refine Outcome.All.dispatched (Outcome.All.bind (signalInstallHandler_all (P := fun w' => ∃ es : List Event,
    (∀ e ∈ es, e.plain = true) ∧ w' = (slotEnter w p).logged es) fun es hes => ⟨es, hes, rfl⟩)
    ?_ ?_) fun _ => Inv.makeBusy
  · rintro w' hdone ⟨es, hes, rfl⟩
    have hrefs : (((slotEnter w p).logged es).slots p).refs = (w.slots p).refs + 1 := by
      show ((slotEnter w p).slots p).refs = _
      rw [hslot]
    have plainUnref : Inv (slotUnref ((slotEnter w p).logged es) p) :=
      (hi.logged hes).unref hx fun h1 => absurd h1 (by omega)
    cases hm : m.type with
    | methodError e =>
      refine (hi.logged hes).finish hx fun hlast => ?_
      have hbus : ((slotEnter w p).logged es).busRef p = w.busRef p := by
        show (slotEnter w p).busRef p = _
        rw [World.busRef, hslot]; rfl
      have hfl : (w.slots p).floating = true := by
        cases hf : (w.slots p).floating with
        | true => rfl
        | false =>
          have : w.busRef p = 0 := by simp [World.busRef, hf]
          omega
      have hb : w.busRef p = 1 := by simp [World.busRef, hc, hfl]
      have hclosed := signalInstallHandler_done hm hdone
      exact (h.unlink (hok ⟨⟨e, hm⟩, hclosed, hfl, by omega⟩)).congr rfl rfl
        (outstanding_plain hes)
    | methodCall => exact plainUnref
    | methodReturn => exact plainUnref
    | signal => exact plainUnref
    | other => exact plainUnref
  · rintro w' ⟨es, hes, rfl⟩; exact hi.logged hes

theorem Inv.installed_broken {w : World} (h : Inv w) {p : Ptr} {m : Message}
    (hc : (w.slots p).connected = true) (hl : LastRefused w p m) (hno : ¬ UnlinkOk w p) :
    ∃ w', processInstall w p m = .done w' ∧ Broken w' p := by
  obtain ⟨⟨e, hm⟩, hch, hf, h1⟩ := hl
  obtain ⟨hi, hx⟩ := h.enter hc
  obtain ⟨es, he, hes⟩ := touch_eq (w := slotEnter w p) handler_ne_dequeue [p]
  have hcl : (((slotEnter w p).logged es).chans
      (((slotEnter w p).logged es).heap p).chan).closed = false := hch
  rw [processInstall, signalInstallHandler]
  simp only [hm, he, channelGive_eq, hcl, Bool.false_eq_true, if_false, Outcome.bind, logged_logged,
    Outcome.dispatched]
  refine ⟨_, rfl, (hi.logged (plain_append hes ?_)).finish_broken hx ?_ hno⟩
  · intro x hx
    rcases List.mem_cons.mp hx with rfl | hx
    · rfl
    · exact chanFault_plain _ _ x hx
  · show ((slotEnter w p).slots p).refs = (slotEnter w p).busRef p + 1
    rw [World.busRef, slotEnter_slot]
    simp [hc, hf, h1]

end JanetSdbus.Async
