import JanetSdbus.Async.Runs

/-! What an operation on one record leaves alone, and what it writes.

    `Frame w w' p es`: between `w` and `w'` only the slot and the handle of record `p` and the links
    changed, and `es` was logged. Letting go of a slot is `Quiet`; a callback either stays quiet or
    gives one tuple to the record's channel (`Gave`). -/

namespace JanetSdbus.Async
open Schemes.LinkedList Schemes.Run

variable {w w' w₁ w₂ : World} {p : Ptr} {es es₁ es₂ : List Event}

structure Frame (w w' : World) (p : Ptr) (es : List Event) : Prop where
  log : w'.log = es ++ w.log
  chan : ∀ x, (w'.heap x).chan = (w.heap x).chan
  kind : ∀ x, (w'.heap x).kind = (w.heap x).kind
  slots : ∀ x, x ≠ p → w'.slots x = w.slots x
  cookie : (w'.slots p).cookie = (w.slots p).cookie
  connected : (w'.slots p).connected = true → (w.slots p).connected = true
  awaiting : (w'.slots p).awaiting = true → (w.slots p).awaiting = true
  handles : ∀ x, x ≠ p → w'.handles x = w.handles x
  finalized : (w'.handles p).finalized = (w.handles p).finalized
  ref : (w'.handles p).ref = (w.handles p).ref
  chans : w'.chans = w.chans
  nextPtr : w'.nextPtr = w.nextPtr
  serial : w'.serial = w.serial
  bus : w'.conn.bus = w.conn.bus
  stream : w'.conn.bus_stream = w.conn.bus_stream

theorem Frame.refl (w : World) (p : Ptr) : Frame w w p [] :=
  ⟨rfl, fun _ => rfl, fun _ => rfl, fun _ _ => rfl, rfl, id, id, fun _ _ => rfl, rfl, rfl, rfl, rfl,
    rfl, rfl, rfl⟩

theorem Frame.trans (h₁ : Frame w w₁ p es₁) (h₂ : Frame w₁ w₂ p es₂) :
    Frame w w₂ p (es₂ ++ es₁) where
  log := by rw [h₂.log, h₁.log, List.append_assoc]
  chan x := by rw [h₂.chan, h₁.chan]
  kind x := by rw [h₂.kind, h₁.kind]
  slots x hx := by rw [h₂.slots x hx, h₁.slots x hx]
  cookie := by rw [h₂.cookie, h₁.cookie]
  connected h := h₁.connected (h₂.connected h)
  awaiting h := h₁.awaiting (h₂.awaiting h)
  handles x hx := by rw [h₂.handles x hx, h₁.handles x hx]
  finalized := by rw [h₂.finalized, h₁.finalized]
  ref := by rw [h₂.ref, h₁.ref]
  chans := by rw [h₂.chans, h₁.chans]
  nextPtr := by rw [h₂.nextPtr, h₁.nextPtr]
  serial := by rw [h₂.serial, h₁.serial]
  bus := by rw [h₂.bus, h₁.bus]
  stream := by rw [h₂.stream, h₁.stream]

theorem Frame.logged (w : World) (p : Ptr) (es : List Event) : Frame w (w.logged es) p es :=
  ⟨rfl, fun _ => rfl, fun _ => rfl, fun _ _ => rfl, rfl, id, id, fun _ _ => rfl, rfl, rfl, rfl, rfl,
    rfl, rfl, rfl⟩

theorem Frame.setSlot {x : SdBusSlot} (hx : x.cookie = (w.slots p).cookie)
    (hc : x.connected = true → (w.slots p).connected = true)
    (ha : x.awaiting = true → (w.slots p).awaiting = true) : Frame w (w.setSlot p x) p [] := by
  refine ⟨rfl, fun _ => rfl, fun _ => rfl, fun _ hy => Function.update_of_ne hy _ _, ?_, ?_, ?_,
    fun _ _ => rfl, rfl, rfl, rfl, rfl, rfl, rfl, rfl⟩
  · rw [World.setSlot_self]; exact hx
  · rw [World.setSlot_self]; exact hc
  · rw [World.setSlot_self]; exact ha

theorem Frame.setHandle {x : Handle} (hx : x.finalized = (w.handles p).finalized)
    (hr : x.ref = (w.handles p).ref) : Frame w (w.setHandle p x) p [] := by
  refine ⟨rfl, fun _ => rfl, fun _ => rfl, fun _ _ => rfl, rfl, id, id,
    fun _ hy => Function.update_of_ne hy _ _, ?_, ?_, rfl, rfl, rfl, rfl, rfl⟩
  · rw [World.setHandle_self]; exact hx
  · rw [World.setHandle_self]; exact hr

theorem Frame.free (w : World) (p : Ptr) :
    Frame w (slotFree w p) p (.destroyed p :: w.dequeueLog p) := by
  obtain ⟨hs, hh, hn, _⟩ := destroy_frame
    (w.setSlot p { w.slots p with refs := 0, connected := false, awaiting := false }) p
  refine ⟨by rw [slotFree_log]; rfl, ?_, ?_, ?_, ?_, ?_, ?_, ?_, ?_, ?_, ?_, hn, ?_, ?_, ?_⟩
  · intro x
    simp only [slotFree, destroyCallCallback, dequeuePending_eq']
    by_cases hx : x = p
    · subst hx; simp [World.note, World.withLinks, World.setSlot]
    · simp [World.note, World.withLinks, World.setSlot, hx]
  · intro x
    simp only [slotFree, destroyCallCallback, dequeuePending_eq']
    by_cases hx : x = p
    · subst hx; simp [World.note, World.withLinks, World.setSlot]
    · simp [World.note, World.withLinks, World.setSlot, hx]
  · intro x hx
    rw [slotFree, hs]; exact Function.update_of_ne hx _ _
  · rw [slotFree, hs, World.setSlot_self]
  · rw [slotFree, hs, World.setSlot_self]; simp
  · rw [slotFree, hs, World.setSlot_self]; simp
  · intro x _
    rw [slotFree, hh]; rfl
  · rw [slotFree, hh]; rfl
  · rw [slotFree, hh]; rfl
  all_goals simp only [slotFree, destroyCallCallback, dequeuePending_eq']; rfl

theorem Frame.answer (w : World) (p : Ptr) :
    Frame w (answer w p) p (.answered p :: w.dequeueLog p) := by
  rw [answer_eq]
  exact ⟨rfl, fun _ => rfl, fun _ => rfl, fun _ _ => rfl, rfl, id, id, fun _ _ => rfl, rfl, rfl,
    rfl, rfl, rfl, rfl, rfl⟩

/-! ### Quiet operations -/

/-- Events that only concern the queue and freed memory, and take out no record but `p`. -/
def Event.quiet (p : Ptr) : Event → Bool
  | .destroyed q | .answered q => q = p
  | .freedRecord .. => true
  | _ => false

/-- Nothing but the record's own slot and handle changed, and nothing was said to anybody. -/
def Quiet (w w' : World) (p : Ptr) : Prop := ∃ es, Frame w w' p es ∧ ∀ e ∈ es, e.quiet p = true

theorem quiet_append {p : Ptr} (h₁ : ∀ e ∈ es₁, Event.quiet p e = true)
    (h₂ : ∀ e ∈ es₂, Event.quiet p e = true) : ∀ e ∈ es₂ ++ es₁, Event.quiet p e = true := by
  intro e he
  rcases List.mem_append.mp he with he | he
  · exact h₂ e he
  · exact h₁ e he

theorem freedOf_quiet (w : World) (site : Site) (ps : List Ptr) (p : Ptr) :
    ∀ e ∈ w.freedOf site ps, Event.quiet p e = true := by
  intro e he
  obtain ⟨q, _, _, rfl⟩ := mem_freedOf.mp he
  rfl

theorem dequeueLog_quiet (w : World) (p q : Ptr) :
    ∀ e ∈ w.dequeueLog q, Event.quiet p e = true := by
  intro e he
  rw [World.dequeueLog] at he
  split at he
  · simp at he
  · exact freedOf_quiet w _ _ p e he

theorem Quiet.refl (w : World) (p : Ptr) : Quiet w w p := ⟨[], Frame.refl w p, by simp⟩

theorem Quiet.trans (h₁ : Quiet w w₁ p) (h₂ : Quiet w₁ w₂ p) : Quiet w w₂ p := by
  obtain ⟨es₁, f₁, q₁⟩ := h₁
  obtain ⟨es₂, f₂, q₂⟩ := h₂
  exact ⟨es₂ ++ es₁, f₁.trans f₂, quiet_append q₁ q₂⟩

theorem Quiet.setSlot {x : SdBusSlot} (hx : x.cookie = (w.slots p).cookie)
    (hc : x.connected = true → (w.slots p).connected = true)
    (ha : x.awaiting = true → (w.slots p).awaiting = true) : Quiet w (w.setSlot p x) p :=
  ⟨[], Frame.setSlot hx hc ha, by simp⟩

theorem Quiet.setHandle {x : Handle} (hx : x.finalized = (w.handles p).finalized)
    (hr : x.ref = (w.handles p).ref) : Quiet w (w.setHandle p x) p :=
  ⟨[], Frame.setHandle hx hr, by simp⟩

theorem Quiet.touch (w : World) (p : Ptr) (site : Site) (ps : List Ptr) :
    Quiet w (w.touch site ps) p :=
  ⟨w.freedOf site ps, Frame.logged w p _, freedOf_quiet w site ps p⟩

theorem Quiet.free (w : World) (p : Ptr) : Quiet w (slotFree w p) p := by
  refine ⟨_, Frame.free w p, fun e he => ?_⟩
  rcases List.mem_cons.mp he with rfl | he
  · simp [Event.quiet]
  · exact dequeueLog_quiet w p p e he

theorem Quiet.unref (w : World) (p : Ptr) : Quiet w (slotUnref w p) p := by
  by_cases h1 : (w.slots p).refs ≤ 1
  · rw [slotUnref_last h1]; exact Quiet.free w p
  · rw [slotUnref_more (by omega)]; exact Quiet.setSlot rfl id id

theorem Quiet.detach (w : World) (p : Ptr) : Quiet w (slotDetach w p) p := by
  have hd : Quiet w (slotDisconnect w p) p := Quiet.setSlot rfl (by simp) (by simp)
  rw [slotDetach]
  split
  · simp only
    split
    · exact hd.trans (Quiet.unref _ p)
    · exact hd
  · exact Quiet.refl w p

theorem Quiet.unfloat (w : World) (p : Ptr) : Quiet w (slotSetFloating w p false) p := by
  rw [slotSetFloating]
  split
  · exact Quiet.refl w p
  · have hs : Quiet w (w.setSlot p { w.slots p with floating := false }) p := Quiet.setSlot rfl id id
    simpa using hs.trans (Quiet.unref _ p)

theorem Quiet.release (h : Inv w) (p : Ptr) : Quiet w (releaseHandle w p) p := by
  cases hs : (w.handles p).slot with
  | none => rw [releaseHandle_none hs]; exact Quiet.refl w p
  | some s =>
    obtain rfl := h.own p s hs
    rw [releaseHandle_eq hs]
    have hn : Quiet w (w.setHandle s { w.handles s with slot := none }) s := Quiet.setHandle rfl rfl
    exact hn.trans (Quiet.unref _ s)

theorem Quiet.ref (w : World) (p : Ptr) : Quiet w (slotRef w p) p := Quiet.setSlot rfl id id

theorem Quiet.enter (w : World) (p : Ptr) : Quiet w (slotEnter w p) p := by
  have hs : Quiet w (w.setSlot p { w.slots p with awaiting := false }) p := Quiet.setSlot rfl id (by simp)
  exact hs.trans (Quiet.ref _ p)

theorem Quiet.answer (w : World) (p : Ptr) : Quiet w (answer w p) p := by
  refine ⟨_, Frame.answer w p, fun e he => ?_⟩
  rcases List.mem_cons.mp he with rfl | he
  · simp [Event.quiet]
  · exact dequeueLog_quiet w p p e he

/-- A quiet operation takes no record out of the queue but its own. -/
theorem outstanding_quiet {x : Ptr} : ∀ {es l : List Event}, (∀ e ∈ es, Event.quiet p e = true) →
    (x ≠ p → x ∈ outstanding l → x ∈ outstanding (es ++ l)) ∧
      (x ∈ outstanding (es ++ l) → x ∈ outstanding l)
  | [], _, _ => ⟨fun _ h => h, fun h => h⟩
  | e :: es, l, h => by
    obtain ⟨h₁, h₂⟩ := outstanding_quiet (x := x) (l := l) fun e he => h e (List.mem_cons_of_mem _ he)
    have he := h e (by simp)
    cases e with
    | destroyed q =>
      have hq : q = p := by simpa [Event.quiet] using he
      subst hq
      refine ⟨fun hx hm => (List.mem_erase_of_ne hx).mpr (h₁ hx hm), fun hm => ?_⟩
      exact h₂ (List.mem_of_mem_erase hm)
    | answered q =>
      have hq : q = p := by simpa [Event.quiet] using he
      subst hq
      refine ⟨fun hx hm => (List.mem_erase_of_ne hx).mpr (h₁ hx hm), fun hm => ?_⟩
      exact h₂ (List.mem_of_mem_erase hm)
    | freedRecord site q => exact ⟨h₁, h₂⟩
    | queued q => simp [Event.quiet] at he
    | cancelled q => simp [Event.quiet] at he
    | swept => simp [Event.quiet] at he
    | wrote s q c t => simp [Event.quiet] at he
    | finalizedHandle q => simp [Event.quiet] at he
    | finalizedChan c => simp [Event.quiet] at he

/-! ### Callbacks -/

/-- What `janet_channel_give` logs for record `p`. -/
def World.giveLog (w : World) (src : Source) (p : Ptr) (t : Tuple) : List Event :=
  if (w.chans (w.heap p).chan).closed then w.chanFault p
  else .wrote src p (w.heap p).chan t :: w.chanFault p

/-- The record's channel was given the tuple, or raised because it is closed. -/
def Gave (w w' : World) (src : Source) (p : Ptr) (t : Tuple) : Prop :=
  ∃ es₁ es₂, Frame w w' p (es₂ ++ (w.giveLog src p t ++ es₁)) ∧
    (∀ e ∈ es₁, e.quiet p = true) ∧ ∀ e ∈ es₂, e.quiet p = true

theorem giveLog_frame {src : Source} {t : Tuple} (h : Frame w w₁ p es) :
    w₁.giveLog src p t = w.giveLog src p t := by
  rw [World.giveLog, World.giveLog, World.chanFault, World.chanFault, h.chan, h.chans]

theorem Gave.before {src : Source} {t : Tuple} (h₁ : Quiet w w₁ p) (h₂ : Gave w₁ w₂ src p t) :
    Gave w w₂ src p t := by
  obtain ⟨es₀, f₁, q₁⟩ := h₁
  obtain ⟨es₁, es₂, f₂, q₂, q₃⟩ := h₂
  refine ⟨es₁ ++ es₀, es₂, ?_, quiet_append q₁ q₂, q₃⟩
  have := f₁.trans f₂
  rw [giveLog_frame f₁] at this
  simpa [List.append_assoc] using this

theorem Gave.after {src : Source} {t : Tuple} (h₁ : Gave w w₁ src p t) (h₂ : Quiet w₁ w₂ p) :
    Gave w w₂ src p t := by
  obtain ⟨es₁, es₂, f₁, q₁, q₂⟩ := h₁
  obtain ⟨es₃, f₂, q₃⟩ := h₂
  refine ⟨es₁, es₃ ++ es₂, ?_, q₁, quiet_append q₂ q₃⟩
  simpa [List.append_assoc] using f₁.trans f₂

/-- One tuple was given to the channel, and whether the callback came back tells if it was open. -/
def GaveEnds (w : World) (src : Source) (p : Ptr) (t : Tuple) (o : Outcome) : Prop :=
  o.Ends (fun w' => (w.chans (w.heap p).chan).closed = false ∧ Gave w w' src p t)
    fun w' => (w.chans (w.heap p).chan).closed = true ∧ Gave w w' src p t

theorem channelGive_gave (w : World) (src : Source) (p : Ptr) (t : Tuple) :
    GaveEnds w src p t (channelGive w src p t) := by
  have hg : Gave w (w.logged (w.giveLog src p t)) src p t :=
    ⟨[], [], by simpa using Frame.logged w p (w.giveLog src p t), by simp, by simp⟩
  rw [GaveEnds, channelGive_eq]
  cases hc : (w.chans (w.heap p).chan).closed with
  | true =>
    refine ⟨rfl, ?_⟩
    rwa [World.giveLog, if_pos hc] at hg
  | false =>
    refine ⟨rfl, ?_⟩
    rwa [World.giveLog, if_neg (by simp [hc])] at hg

theorem GaveEnds.before {src : Source} {t : Tuple} {o : Outcome} (h₁ : Quiet w w₁ p)
    (h₂ : GaveEnds w₁ src p t o) : GaveEnds w src p t o := by
  have hc : (w₁.chans (w₁.heap p).chan).closed = (w.chans (w.heap p).chan).closed := by
    obtain ⟨es, f, _⟩ := h₁
    rw [f.chans, f.chan]
  cases o with
  | done w₂ => exact ⟨hc ▸ h₂.1, h₂.2.before h₁⟩
  | raised w₂ e => exact ⟨hc ▸ h₂.1, h₂.2.before h₁⟩
  | diverged => exact h₂

theorem GaveEnds.after {src : Source} {t : Tuple} {o : Outcome} {f : World → World}
    (h₁ : GaveEnds w src p t o) (h₂ : ∀ w', Quiet w' (f w') p) :
    GaveEnds w src p t (o.bind fun w' => .done (f w')) := by
  cases o with
  | done w₁ => exact ⟨h₁.1, h₁.2.after (h₂ w₁)⟩
  | raised w₁ e => exact h₁
  | diverged => exact h₁

theorem GaveEnds.dispatched {src : Source} {t : Tuple} {o : Outcome} (h : GaveEnds w src p t o) :
    GaveEnds w src p t o.dispatched := by
  refine Outcome.Ends.dispatched h fun w' hgave => ⟨hgave.1, hgave.2.after ⟨[], ?_, by simp⟩⟩
  exact ⟨rfl, fun _ => rfl, fun _ => rfl, fun _ _ => rfl, rfl, id, id, fun _ _ => rfl, rfl, rfl, rfl, rfl, rfl,
    rfl, rfl⟩

/-- The tuple `message_handler` makes of a message it does not ignore. -/
def handlerTuple (kind : Kind) (m : Message) : Tuple :=
  match m.type with
  | .methodError error => .error (formatError error)
  | .signal => .ok m
  | _ => .ok (if kind = .Call then m else messageCopy m)

theorem messageHandler_gave {m : Message} (hm : m.type ≠ .other) :
    GaveEnds w .handler p (handlerTuple (w.heap p).kind m) (messageHandler w p m) := by
  have ht : Quiet w (w.touch .handler [p]) p := Quiet.touch w p _ _
  -- a record of kind Call is unlinked first
  have hunlink : ∀ (b : Prop) [Decidable b], Quiet w
      (if b then (dequeuePending (w.touch .handler [p]) p).note (.answered p)
        else w.touch .handler [p]) p := by
    intro b _
    split
    · exact ht.trans (Quiet.answer _ p)
    · exact ht
  have hk : ((w.touch .handler [p]).heap p).kind = (w.heap p).kind := rfl
  rw [messageHandler, handlerTuple]
  cases hmt : m.type with
  | methodReturn => exact GaveEnds.before (hunlink _) (channelGive_gave _ _ _ _)
  | methodCall => exact GaveEnds.before ht (channelGive_gave _ _ _ _)
  | signal => exact GaveEnds.before ht (channelGive_gave _ _ _ _)
  | methodError error => exact GaveEnds.before (hunlink _) (channelGive_gave _ _ _ _)
  | other => exact absurd hmt hm

theorem messageHandler_other {m : Message} (hm : m.type = .other) :
    messageHandler w p m = .done (w.touch .handler [p]) := by
  simp only [messageHandler, hm]

theorem processReply_gave {m : Message} (hm : m.type ≠ .other) :
    GaveEnds w .handler p (handlerTuple (w.heap p).kind m) (processReply w p m) := by
  have hk : ((slotEnter w p).heap p).kind = (w.heap p).kind := rfl
  refine (GaveEnds.after ((messageHandler_gave hm).before (Quiet.enter w p)) fun w' => ?_).dispatched
  exact (Quiet.detach w' p).trans (Quiet.unref _ p)

theorem processMatch_gave {m : Message} (hm : m.type ≠ .other) :
    GaveEnds w .handler p (handlerTuple (w.heap p).kind m) (processMatch w p m) :=
  (GaveEnds.after ((messageHandler_gave hm).before (Quiet.ref w p)) fun w' => Quiet.unref w' p).dispatched

theorem processMatch_other {m : Message} (hm : m.type = .other) :
    ∃ w', processMatch w p m = .done w' ∧ Quiet w w' p := by
  rw [processMatch, messageHandler_other hm]
  exact ⟨_, rfl, ((Quiet.ref w p).trans (Quiet.touch _ p _ _)).trans (Quiet.unref _ p)⟩

theorem processInstall_refused {m : Message} {error : BusError} (hm : m.type = .methodError error) :
    GaveEnds w .install p (.error (formatError error)) (processInstall w p m) := by
  have ht := (Quiet.enter w p).trans (Quiet.touch (slotEnter w p) p .handler [p])
  rw [processInstall, signalInstallHandler]
  simp only [hm]
  refine (GaveEnds.after ((channelGive_gave _ _ _ _).before ht) fun w' => ?_).dispatched
  exact (Quiet.detach w' p).trans (Quiet.unref _ p)

theorem processInstall_accepted {m : Message} (hm : ∀ error, m.type ≠ .methodError error) :
    ∃ w', processInstall w p m = .done w' ∧ Quiet w w' p := by
  have ht := (Quiet.enter w p).trans (Quiet.touch (slotEnter w p) p .handler [p])
  rw [processInstall, signalInstallHandler]
  cases hmt : m.type with
  | methodError error => exact absurd hmt (hm error)
  | _ => exact ⟨_, rfl, ht.trans (Quiet.unref _ p)⟩

end JanetSdbus.Async
