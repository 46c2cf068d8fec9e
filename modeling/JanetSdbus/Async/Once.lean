import JanetSdbus.Async.Effect

/-! At most one outcome per call.

    Three places write to the channel of a call: its reply callback and the two sweeps. A sweep drops
    the reference of the user and empties the queue, but a floating slot stays connected, so a reply
    may still come. `CallOk` asks that replies are for queued calls and that a sweep is not cut
    short by a closed channel. Under it a queued call has had no tuple yet, and leaves the queue with
    the only one it gets. -/

namespace JanetSdbus.Async
open Schemes.LinkedList Schemes.Run

variable {w w' w₁ : World} {p x : Ptr} {es : List Event}

def Event.writes (p : Ptr) : Event → Bool
  | .wrote _ q _ _ => q = p
  | _ => false

/-- The call is over for its user: it was cancelled, or told of the end of the connection. -/
def Event.ends (p : Ptr) : Event → Bool
  | .cancelled q => q = p
  | .wrote .closeall q _ _ => q = p
  | _ => false

/-- What a log may say about call `p`, which gave its channel `c` and the cookie `k`: at most one
    tuple, none after its end, and the tuple is for that channel and carries that reply. -/
structure OneOutcome (p : Ptr) (c : ChanId) (k : ℕ) (l : List Event) : Prop where
  once : (l.filter (·.writes p)).length ≤ 1
  final : ∀ e l₁ l₂, l = l₁ ++ e :: l₂ → e.ends p = true → ∀ e' ∈ l₁, e'.writes p = false
  own : ∀ src c' t, .wrote src p c' t ∈ l → c' = c ∧ ∀ m, t = .ok m → m.replyCookie = some k

/-- Every call that was accepted has at most one outcome, and no two calls share a cookie. -/
structure CallsOnce (w : World) : Prop where
  one : ∀ p, .queued p ∈ w.log → (w.heap p).kind = .Call →
    OneOutcome p (w.heap p).chan (w.slots p).cookie w.log
  cookies : ∀ p q, .queued p ∈ w.log → .queued q ∈ w.log →
    (w.slots p).cookie = (w.slots q).cookie → p = q

/-- What a step has to meet. A reply is delivered to a call that is still queued; a sweep finds the
    channels of the queued records open; a handle that is cancelled has not been finalized. -/
def CallOk (w : World) : Step → Prop
  | .reply p _ => p ∈ w.queued
  | .cancel p => StepOk w (.cancel p) ∧ (w.handles p).finalized = false
  | .hup | .err | .closeBus =>
    w.listening = true → ∀ p ∈ w.queued, (w.chans (w.heap p).chan).closed = false
  | s => StepOk w s

theorem CallOk.stepOk {s : Step} (h : CallOk w s) : StepOk w s := by
  cases s with
  | reply p m => exact Or.inl h
  | cancel p => exact h.1
  | hup => trivial
  | err => trivial
  | closeBus => trivial
  | _ => exact h

/-! ### Histories -/

/-- Nothing was written and the call is not over. -/
def Unsettled (p : Ptr) (l : List Event) : Prop := ∀ e ∈ l, e.writes p = false ∧ e.ends p = false

theorem Unsettled.oneOutcome {c : ChanId} {k : ℕ} {l : List Event} (h : Unsettled p l) :
    OneOutcome p c k l where
  once := by
    have : l.filter (·.writes p) = [] := by
      rw [List.filter_eq_nil_iff]
      intro e he; simp [(h e he).1]
    simp [this]
  final e l₁ l₂ hl he := by
    have := (h e (by simp [hl])).2
    rw [he] at this; simp at this
  own src c' t hm := by
    have := (h _ hm).1
    simp [Event.writes] at this

/-- Events that write nothing leave what was settled settled. -/
theorem OneOutcome.silent {c : ChanId} {k : ℕ} {l : List Event} (h : OneOutcome p c k l)
    (es : List Event) (hes : ∀ e ∈ es, e.writes p = false) : OneOutcome p c k (es ++ l) where
  once := by
    have : es.filter (·.writes p) = [] := by
      rw [List.filter_eq_nil_iff]
      intro e he; simp [hes e he]
    rw [List.filter_append, this]
    exact h.once
  final e l₁ l₂ hl he := by
    rcases List.append_eq_append_iff.mp hl with ⟨m, rfl, hm⟩ | ⟨m, rfl, hm⟩
    · intro e' he'
      rcases List.mem_append.mp he' with he' | he'
      · exact hes e' he'
      · exact h.final e m l₂ hm he e' he'
    · intro e' he'
      exact hes e' (List.mem_append_left _ he')
  own src c' t hm := by
    rcases List.mem_append.mp hm with hm | hm
    · have := hes _ hm; simp [Event.writes] at this
    · exact h.own src c' t hm

/-- The first tuple of an unsettled call. -/
theorem Unsettled.write {c : ChanId} {k : ℕ} {l : List Event} (h : Unsettled p l) {src : Source}
    {t : Tuple} (ht : ∀ m, t = .ok m → m.replyCookie = some k) :
    OneOutcome p c k (.wrote src p c t :: l) where
  once := by
    have : l.filter (·.writes p) = [] := by
      rw [List.filter_eq_nil_iff]
      intro e he; simp [(h e he).1]
    rw [List.filter_cons]
    split <;> simp [this]
  final e l₁ l₂ hl he := by
    rcases l₁ with _ | ⟨e₁, l₁⟩
    · simp
    · -- the end would be among the old events
      have hm : e ∈ l := by
        have := List.tail_eq_of_cons_eq hl
        rw [this]; simp
      rw [(h e hm).2] at he; simp at he
  own src' c' t' hm := by
    rcases List.mem_cons.mp hm with hm | hm
    · simp only [Event.wrote.injEq] at hm
      obtain ⟨_, _, rfl, rfl⟩ := hm
      exact ⟨rfl, ht⟩
    · have := (h _ hm).1; simp [Event.writes] at this

theorem Unsettled.silent {l : List Event} (h : Unsettled p l)
    (hes : ∀ e ∈ es, (∃ q, e = .answered q) ∨ ∃ q, e = .destroyed q) : Unsettled p (es ++ l) := by
  intro e he
  rcases List.mem_append.mp he with he | he
  · rcases hes e he with ⟨q, rfl⟩ | ⟨q, rfl⟩ <;> exact ⟨rfl, rfl⟩
  · exact h e he

theorem silent_of_quiet (hes : ∀ e ∈ es, (∃ q, e = Event.answered q) ∨ ∃ q, e = .destroyed q) :
    ∀ e ∈ es, e.writes p = false := by
  intro e he
  rcases hes e he with ⟨q, rfl⟩ | ⟨q, rfl⟩ <;> rfl

/-- A tuple given to an unsettled call settles it. -/
theorem Unsettled.given {v v' : View} {wrote : List Event} (h : Unsettled p v.hist)
    (src : Source) (t : Tuple) (hg : v.Given v' wrote)
    (hw : wrote = [] ∨ wrote = [.wrote src p v.chan t])
    (ht : ∀ m, t = .ok m → m.replyCookie = some v.slot.cookie) :
    OneOutcome p v'.chan v'.slot.cookie v'.hist := by
  obtain ⟨es₁, es₂, hh, hes⟩ := hg.hist
  have h₁ := h.silent fun e he => hes e (List.mem_append_left es₂ he)
  have h₂ : ∀ e ∈ es₂, e.writes p = false :=
    silent_of_quiet fun e he => hes e (List.mem_append_right es₁ he)
  rw [hg.chan, hg.cookie, hh]
  rcases hw with rfl | rfl
  · exact h₁.oneOutcome.silent _ h₂
  · exact (h₁.write ht).silent _ h₂

theorem OneOutcome.given {v v' : View} (h : OneOutcome p v.chan v.slot.cookie v.hist)
    (hg : v.Given v' []) : OneOutcome p v'.chan v'.slot.cookie v'.hist := by
  obtain ⟨es₁, es₂, hh, hes⟩ := hg.hist
  rw [hg.chan, hg.cookie, hh]
  exact (h.silent _ (silent_of_quiet fun e he => hes e (List.mem_append_left es₂ he))).silent _
    (silent_of_quiet fun e he => hes e (List.mem_append_right es₁ he))

/-- Only a call's own events matter. -/
theorem OneOutcome.of_history {c : ChanId} {k : ℕ} {l : List Event}
    (h : OneOutcome p c k (history p l)) : OneOutcome p c k l := by
  have hwr : ∀ e : Event, e.writes p = true → e.record = some p := by
    intro e he; cases e <;> simp_all [Event.writes, Event.record]
  have hen : ∀ e : Event, e.ends p = true → e.record = some p := by
    intro e he
    cases e with
    | wrote src q c t => cases src <;> simp_all [Event.ends, Event.record]
    | _ => simp_all [Event.ends, Event.record]
  refine ⟨?_, ?_, ?_⟩
  · have : (history p l).filter (·.writes p) = l.filter (·.writes p) := by
      rw [history, List.filter_filter]
      refine List.filter_congr fun e _ => ?_
      cases hw : e.writes p with
      | false => simp
      | true => simp [hwr e hw]
    rw [← this]; exact h.once
  · rintro e l₁ l₂ rfl he e' he'
    have hh : history p (l₁ ++ e :: l₂) = history p l₁ ++ e :: history p l₂ := by
      rw [history_append]
      congr 1
      exact List.filter_cons_of_pos (by simp [hen e he])
    cases hw : e'.writes p with
    | false => rfl
    | true =>
      have hm : e' ∈ history p l₁ := List.mem_filter.mpr ⟨he', by simp [hwr e' hw]⟩
      rw [← hw]; exact h.final e _ _ hh he e' hm
  · intro src c' t hm
    exact h.own src c' t (List.mem_filter.mpr ⟨hm, by simp [Event.record]⟩)

/-! ### The invariant -/

/-- The slot of a queued call: the bus holds it, and so does the handle unless it was finalized. -/
def View.held (p : Ptr) (v : View) : Prop :=
  v.slot.floating = true ∧ v.slot.connected = true ∧
    ((v.handle.slot = some p ∧ v.slot.refs = 2) ∨
      (v.handle.slot = none ∧ v.handle.finalized = true ∧ v.slot.refs = 1))

/-- What is kept of a call. While the connection is open, a queued call is unsettled. -/
structure Single (w : World) (p : Ptr) (v : View) : Prop where
  unsettled : w.conn.bus = true → v.outstanding = true → Unsettled p v.hist
  held : w.conn.bus = true → v.outstanding = true → v.held p
  one : OneOutcome p v.chan v.slot.cookie v.hist

structure Serials (w : World) : Prop where
  bound : ∀ x, .queued x ∈ (w.view x).hist → (w.view x).slot.cookie ≤ w.serial
  inj : ∀ x y, .queued x ∈ (w.view x).hist → .queued y ∈ (w.view y).hist →
    (w.view x).slot.cookie = (w.view y).slot.cookie → x = y

structure Calls (w : World) : Prop where
  sound : Sound w
  single : ∀ x, (w.view x).kind = .Call → Single w x (w.view x)
  serials : Serials w
  shut : w.conn.bus = false → w.listening = false

theorem Calls.init : Calls initial where
  sound := Sound.init
  single x _ := by
    have hh : (initial.view x).hist = [] := rfl
    refine ⟨fun _ h => ?_, fun _ h => ?_, ?_⟩
    · simp [World.view, initial, outstanding] at h
    · simp [World.view, initial, outstanding] at h
    · rw [hh]; exact Unsettled.oneOutcome (by simp [Unsettled])
  serials := ⟨fun x h => by simp [World.view, initial, history] at h,
    fun x y h => by simp [World.view, initial, history] at h⟩
  shut h := by simp [initial] at h

/-- A call that has left the queue only has to keep its one outcome. -/
theorem Single.over {v : View} (ho : w.conn.bus = true → v.outstanding = false)
    (h : OneOutcome p v.chan v.slot.cookie v.hist) : Single w p v where
  unsettled hb hv := by rw [ho hb] at hv; simp at hv
  held hb hv := by rw [ho hb] at hv; simp at hv
  one := h

/-- Who refers to the handle makes no difference. -/
theorem Single.ref {v : View} (h : Single w p v) (r : Ref) :
    Single w p { v with handle := { v.handle with ref := r } } :=
  ⟨h.unsettled, h.held, h.one⟩

theorem Serials.given (h : Serials w) (hn : w.serial ≤ w'.serial)
    (hc : ∀ x, (w'.view x).slot.cookie = (w.view x).slot.cookie)
    (hq : ∀ x, .queued x ∈ (w'.view x).hist → .queued x ∈ (w.view x).hist) : Serials w' where
  bound x hx := by rw [hc]; exact Nat.le_trans (h.bound x (hq x hx)) hn
  inj x y hx hy he := by rw [hc, hc] at he; exact h.inj x y (hq x hx) (hq y hy) he

theorem Calls.started (hn : Calls w) {c : ChanId} {kind : Kind} {rv : ℤ}
    (h : Started w w' c kind rv) : Single w w.nextPtr (w'.view w.nextPtr) := by
  have hnil : history w.nextPtr w.log = [] := hn.sound.fresh _ (Nat.le_refl _)
  rcases h.subject with ⟨_, hv, _⟩ | ⟨_, hv, _⟩
  · have hun : Unsettled w.nextPtr (startView w c kind).hist := by
      intro e he
      rw [startView, hnil] at he
      obtain rfl := List.mem_singleton.mp he
      exact ⟨rfl, rfl⟩
    rw [hv]
    exact ⟨fun _ _ => hun, fun _ _ => ⟨rfl, rfl, Or.inl ⟨rfl, rfl⟩⟩, hun.oneOutcome⟩
  · rw [hv]
    refine Single.over (fun _ => ?_) ?_
    · have := hn.sound.inv.nextPtr_notMem
      simpa [rejectView, World.view] using this
    · have hh : (rejectView w c kind).hist = [] := hnil
      rw [hh]; exact Unsettled.oneOutcome (by simp [Unsettled])

/-- A finalized handle takes its reference with it; the bus keeps its own. -/
theorem View.held.finalize (hf : (w.handles p).finalized = false) (h : (w.view p).held p) :
    (releaseHandle w p).log = w.log ∧ View.held p { (releaseHandle w p).view p with
      handle := { (releaseHandle w p).handles p with finalized := true } } := by
  obtain ⟨h₁, h₂, ⟨hs, hr⟩ | ⟨_, hf', _⟩⟩ := h
  · have hs' : (w.handles p).slot = some p := hs
    have hr' : (w.slots p).refs = 2 := hr
    have hm : 1 < ((w.setHandle p { w.handles p with slot := none }).slots p).refs := by
      show 1 < (w.slots p).refs
      omega
    have he := releaseHandle_eq hs'
    rw [slotUnref_more hm] at he
    have hslot : (releaseHandle w p).slots p = { w.slots p with refs := (w.slots p).refs - 1 } := by
      rw [he, World.setSlot_self]; rfl
    refine ⟨by rw [he]; rfl, ?_, ?_, Or.inr ⟨releaseHandle_slot w p, rfl, ?_⟩⟩
    · show ((releaseHandle w p).slots p).floating = true
      rw [hslot]; exact h₁
    · show ((releaseHandle w p).slots p).connected = true
      rw [hslot]; exact h₂
    · show ((releaseHandle w p).slots p).refs = 1
      rw [hslot]; simp only; omega
  · have hf'' : (w.handles p).finalized = true := hf'
    rw [hf] at hf''; simp at hf''

/-- The reply ends an unsettled call. -/
theorem Calls.replied (hn : Calls w) {m : Message} (hc : w.callable p .Call = true) (hm : w.isReply p m)
    (h : Gave w w' .handler p (handlerTuple .Call m)) (ho : p ∉ outstanding w'.log) (hq : p ∈ w.queued)
    (hk : (w'.view p).kind = .Call) : Single w p (w'.view p) := by
  have hg := h.view
  have hout : (w.view p).outstanding = true := decide_eq_true (hn.sound.inv.queued_eq ▸ hq)
  have hs := hn.single p (by rw [← hg.kind]; exact hk)
  refine Single.over (fun _ => decide_eq_false ho) ?_
  refine (hs.unsettled (World.callable_spec hc).1 hout).given .handler (handlerTuple .Call m) hg ?_ ?_
  · rw [World.wroteIf]
    split
    · exact Or.inl rfl
    · exact Or.inr rfl
  · intro m' hm'
    have hcookie := hm.1
    rcases hm.type with hty | ⟨error, hty⟩
    · simp only [handlerTuple, hty, if_true, Tuple.ok.injEq] at hm'
      rw [← hm']; exact hcookie
    · simp [handlerTuple, hty] at hm'

/-- What sd-bus says of a match is about no call. -/
theorem Calls.signalled {src : Source} (hc : w.callable p .Match = true)
    (h : Quiet w w' p ∨ ∃ t, Gave w w' src p t) (hk : (w'.view p).kind = .Call) :
    Single w p (w'.view p) := by
  have hkind : (w'.view p).kind = (w.view p).kind := by
    rcases h with h | ⟨t, h⟩
    · exact h.view.kind
    · exact h.view.kind
  have hm : (w.view p).kind = .Match := (World.callable_spec hc).2.2.1
  rw [hkind, hm] at hk; simp at hk

/-- A cancelled call is out of the queue: the handle and the bus held the only references, so the
    record was destroyed. -/
theorem Calls.cancelled (hn : Calls w) (hf : (w.handles p).finalized = false) (h : Quiet w w₁ p)
    (hout : (w.handles p).slot = some p → (w.slots p).refs ≤ w.busRef p + 1 → p ∉ outstanding w₁.log)
    (hk : (w₁.view p).kind = .Call) : Single w p ((w₁.note (.cancelled p)).view p) := by
  have hg := h.view
  have hs := hn.single p (by rw [← hg.kind]; exact hk)
  have hnote : (w₁.note (.cancelled p)).view p =
      { w₁.view p with hist := .cancelled p :: (w₁.view p).hist } := by
    simp [World.view, World.note, history, Event.record, outstanding]
  rw [hnote]
  refine Single.over (fun hb => ?_) ((hs.one.given hg).silent [.cancelled p] ?_)
  · cases hv : (w₁.view p).outstanding with
    | false => rfl
    | true =>
      obtain ⟨hfl, hcn, ⟨hsl, hr⟩ | ⟨_, hf', _⟩⟩ := hs.held hb (hg.outstanding hv)
      · refine absurd (of_decide_eq_true hv) (hout hsl ?_)
        have hfl' : (w.slots p).floating = true := hfl
        have hcn' : (w.slots p).connected = true := hcn
        have hr' : (w.slots p).refs = 2 := hr
        rw [hr', World.busRef, hfl', hcn']
        decide
      · have hf'' : (w.handles p).finalized = true := hf'
        rw [hf] at hf''; simp at hf''
  · intro e he
    rw [List.mem_singleton.mp he]; rfl

/-- The bus keeps a queued call whose handle is collected. -/
theorem Calls.collected (hn : Calls w) (hfin : (w.handles p).finalized = false) (h : Quiet w w₁ p)
    (hw₁ : w₁ = releaseHandle w p) (hk : (w₁.view p).kind = .Call) :
    Single w p { w₁.view p with handle := { w₁.handles p with finalized := true } } := by
  have hg := h.view
  have hs := hn.single p (by rw [← hg.kind]; exact hk)
  have hone : OneOutcome p (w₁.view p).chan (w₁.view p).slot.cookie (w₁.view p).hist :=
    hs.one.given hg
  refine ⟨fun hb hv => ?_, fun hb hv => ?_, hone⟩
  · have hlog : w₁.log = w.log := by
      rw [hw₁]; exact (View.held.finalize hfin (hs.held hb (hg.outstanding hv))).1
    have hh : (w₁.view p).hist = (w.view p).hist := by simp only [World.view, hlog]
    show Unsettled p (w₁.view p).hist
    rw [hh]; exact hs.unsettled hb (hg.outstanding hv)
  · rw [hw₁]
    exact (View.held.finalize hfin (hs.held hb (hg.outstanding hv))).2

/-- A closed connection has no queued calls. -/
theorem Calls.dropped (hn : Calls w) (hb : w.conn.bus = false) (h : Quiet w w' p)
    (hk : (w'.view p).kind = .Call) : Single w p (w'.view p) := by
  have hg := h.view
  have hs := hn.single p (by rw [← hg.kind]; exact hk)
  exact Single.over (fun hb' => by rw [hb] at hb'; simp at hb') (hs.one.given hg)

/-- The record that a step is about. -/
theorem Calls.subject (hn : Calls w) {s : Step} (hok : CallOk w s) (he : Effect w s w')
    (hsw : s.sweeps = false) (hp : s.subject w = some p) (hk : (w'.view p).kind = .Call) :
    Single w p (w'.view p) := by
  cases he with
  | callAsync _ _ h => obtain rfl := (Option.some.inj hp).symm; exact hn.started h
  | matchAsync _ _ h => obtain rfl := (Option.some.inj hp).symm; exact hn.started h
  | returned es _ _ hes =>
    obtain rfl := (Option.some.inj hp).symm
    rw [view_setHandle_self, view_returned hes] at hk ⊢
    exact (hn.single p hk).ref .user
  | reply hc hm _ h ho => obtain rfl := (Option.some.inj hp).symm; exact hn.replied hc hm h ho hok hk
  | matched hc h _ => obtain rfl := (Option.some.inj hp).symm; exact Calls.signalled hc h hk
  | installed hc h _ => obtain rfl := (Option.some.inj hp).symm; exact Calls.signalled hc h hk
  | cancel w₁ _ _ h hout => obtain rfl := (Option.some.inj hp).symm; exact hn.cancelled hok.2 h hout hk
  | dropHandle _ =>
    obtain rfl := (Option.some.inj hp).symm
    rw [view_setHandle_self] at hk ⊢
    exact (hn.single p hk).ref .dropped
  | gcHandle w₁ _ _ hfin h hw₁ =>
    obtain rfl := (Option.some.inj hp).symm
    rw [view_setHandle_self] at hk ⊢
    exact hn.collected hfin h hw₁ hk
  | busDrop _ hb h => obtain rfl := (Option.some.inj hp).symm; exact hn.dropped hb h hk
  | dropChan => simp [Step.subject] at hp
  | closeChan => simp [Step.subject] at hp
  | gcChan _ => simp [Step.subject] at hp
  | hup => simp [Step.sweeps] at hsw
  | err => simp [Step.sweeps] at hsw
  | closeBus => simp [Step.sweeps] at hsw

theorem View.Given.queued {v v' : View} {wrote : List Event} (hg : v.Given v' wrote)
    (hw : .queued p ∉ wrote) (h : .queued p ∈ v'.hist) : .queued p ∈ v.hist := by
  rcases hg.mem h with h | h | ⟨q, h⟩ | ⟨q, h⟩
  · exact h
  · exact absurd h hw
  · simp at h
  · simp at h

/-- What two views of a record have in common as far as its cookie goes. -/
def View.SameCall (p : Ptr) (v v' : View) : Prop :=
  v'.slot.cookie = v.slot.cookie ∧ (.queued p ∈ v'.hist → .queued p ∈ v.hist)

theorem View.SameCall.given {v v' : View} {wrote : List Event} (hg : v.Given v' wrote)
    (hw : .queued p ∉ wrote) : v.SameCall p v' := ⟨hg.cookie, hg.queued hw⟩

theorem Serials.started (hn : Calls w) {c : ChanId} {kind : Kind} {rv : ℤ}
    (h : Started w w' c kind rv) : Serials w' := by
  have old : ∀ x, .queued x ∈ (w'.view x).hist → x ≠ w.nextPtr →
      w'.view x = w.view x ∧ (w.view x).slot.cookie ≤ w.serial := by
    intro x hx hne
    rw [h.others x hne] at hx
    exact ⟨h.others x hne, hn.serials.bound x hx⟩
  rcases h.subject with ⟨_, hv, hs⟩ | ⟨_, hv, hs⟩
  · have hnew : (w'.view w.nextPtr).slot.cookie = w.serial + 1 := by rw [hv]; rfl
    refine ⟨fun x hx => ?_, fun x y hx hy he => ?_⟩
    · by_cases hne : x = w.nextPtr
      · exact Nat.le_of_eq (by rw [hne, hnew, hs])
      · obtain ⟨h₁, h₂⟩ := old x hx hne
        rw [h₁, hs]; omega
    · by_cases hxn : x = w.nextPtr <;> by_cases hyn : y = w.nextPtr
      · rw [hxn, hyn]
      · obtain ⟨h₁, h₂⟩ := old y hy hyn
        rw [hxn, hnew, h₁] at he; omega
      · obtain ⟨h₁, h₂⟩ := old x hx hxn
        rw [hyn, hnew, h₁] at he; omega
      · rw [h.others x hxn] at hx he
        rw [h.others y hyn] at hy he
        exact hn.serials.inj x y hx hy he
  · have hnil : history w.nextPtr w.log = [] := hn.sound.fresh _ (Nat.le_refl _)
    have hnot : ∀ x, .queued x ∈ (w'.view x).hist → x ≠ w.nextPtr := by
      rintro x hx rfl
      rw [hv, rejectView, World.view, hnil] at hx
      simp at hx
    refine ⟨fun x hx => ?_, fun x y hx hy he => ?_⟩
    · obtain ⟨h₁, h₂⟩ := old x hx (hnot x hx)
      rw [h₁, hs]; exact h₂
    · obtain ⟨hx', hy'⟩ := And.intro (hnot x hx) (hnot y hy)
      rw [h.others x hx'] at hx he
      rw [h.others y hy'] at hy he
      exact hn.serials.inj x y hx hy he

theorem Calls.cookies (hn : Calls w) {s : Step} (he : Effect w s w') (hsw : s.sweeps = false) :
    Serials w' := by
  have hle := he.serial hsw
  have same : (∀ p, s.subject w = some p → (w.view p).SameCall p (w'.view p)) → Serials w' := by
    intro h
    have hall : ∀ x, (w.view x).SameCall x (w'.view x) := by
      intro x
      by_cases hx : s.subject w = some x
      · exact h x hx
      · rw [he.others hsw hx]; exact ⟨rfl, id⟩
    exact hn.serials.given hle (fun x => (hall x).1) fun x => (hall x).2
  have quiet : ∀ {p}, Quiet w w' p → (w.view p).SameCall p (w'.view p) :=
    fun h => .given h.view (by simp)
  have gave : ∀ {src p t}, Gave w w' src p t → (w.view p).SameCall p (w'.view p) :=
    fun h => .given h.view (wroteIf_queued _ _ _ _ _)
  cases he with
  | callAsync _ _ h => exact Serials.started hn h
  | matchAsync _ _ h => exact Serials.started hn h
  | returned es _ _ hes =>
    refine same fun p hp => ?_
    obtain rfl := (Option.some.inj hp).symm
    rw [view_setHandle_self, view_returned hes]
    exact ⟨rfl, id⟩
  | reply _ _ _ h _ => exact same fun p hp => by obtain rfl := (Option.some.inj hp).symm; exact gave h
  | matched _ h _ =>
    refine same fun p hp => ?_
    obtain rfl := (Option.some.inj hp).symm
    exact h.elim quiet fun ⟨_, h⟩ => gave h
  | installed _ h _ =>
    refine same fun p hp => ?_
    obtain rfl := (Option.some.inj hp).symm
    exact h.elim quiet fun ⟨_, h⟩ => gave h
  | cancel w₁ _ _ h _ =>
    refine same fun p hp => ?_
    obtain rfl := (Option.some.inj hp).symm
    refine ⟨h.view.cookie, fun hq => h.view.queued (by simp) ?_⟩
    exact (mem_history rfl).mpr (List.mem_of_ne_of_mem (by simp) ((mem_history rfl).mp hq))
  | dropHandle _ =>
    refine same fun p hp => ?_
    obtain rfl := (Option.some.inj hp).symm
    rw [view_setHandle_self]
    exact ⟨rfl, id⟩
  | gcHandle w₁ _ _ _ h _ =>
    refine same fun p hp => ?_
    obtain rfl := (Option.some.inj hp).symm
    rw [view_setHandle_self]
    exact ⟨h.view.cookie, h.view.queued (by simp)⟩
  | busDrop _ _ h =>
    exact same fun p hp => by obtain rfl := (Option.some.inj hp).symm; exact quiet h
  | dropChan => exact same fun p hp => by simp [Step.subject] at hp
  | closeChan => exact same fun p hp => by simp [Step.subject] at hp
  | gcChan _ => exact same fun p hp => by simp [Step.subject] at hp
  | hup => simp [Step.sweeps] at hsw
  | err => simp [Step.sweeps] at hsw
  | closeBus => simp [Step.sweeps] at hsw

/-! ### Sweeps -/

/-- Before a turn of the loop: the calls still to be visited are unsettled. -/
structure Sweeping (l : List Ptr) (w : World) : Prop where
  bus : w.conn.bus = true
  opened : ∀ x ∈ l, (w.chans (w.heap x).chan).closed = false
  unsettled : ∀ x ∈ l, (w.view x).kind = .Call → Unsettled x (w.view x).hist
  one : ∀ x, (w.view x).kind = .Call →
    OneOutcome x (w.view x).chan (w.view x).slot.cookie (w.view x).hist
  serials : Serials w

theorem Sweeping.visit {tuple : Tuple} (ht : ∃ ev : AsyncEvent, tuple = ev.tuple) {l : List Ptr}
    (h : Inv w) (hl : ∃ l₁, outstanding w.log = l₁ ++ p :: l) (hJ : Sweeping (p :: l) w) :
    (closeallVisit tuple w p).Ends (Sweeping l) fun _ => False := by
  obtain ⟨ev, rfl⟩ := ht
  obtain ⟨l₁, ho⟩ := hl
  have hpl : p ∉ l := by
    have hnd := h.repr.nodup
    rw [ho] at hnd
    exact (List.nodup_cons.mp (List.nodup_append.mp hnd).2.1).1
  have hv := closeallVisit_ends h ev.tuple p
  cases hc : closeallVisit ev.tuple w p with
  | diverged => rw [hc] at hv; exact hv
  | raised w' e => rw [hc] at hv; exact absurd hv.1 (by simp [hJ.opened])
  | done w' =>
    rw [hc] at hv
    have hg := hv.view
    obtain ⟨es, f, _⟩ := hv.frame
    have hne : ∀ x ∈ l, x ≠ p := by rintro x hx rfl; exact hpl hx
    have hsame : ∀ x, (w.view x).SameCall x (w'.view x) := by
      intro x
      by_cases hx : x = p
      · subst hx; exact .given hg (by simp)
      · rw [hv.view_other hx]; exact ⟨rfl, id⟩
    refine ⟨f.bus.trans hJ.bus, fun x hx => ?_, fun x hx => ?_, fun x hk => ?_,
      hJ.serials.given (Nat.le_of_eq f.serial.symm) (fun x => (hsame x).1) fun x => (hsame x).2⟩
    · rw [f.chans, f.chan]; exact hJ.opened x (List.mem_cons_of_mem _ hx)
    · rw [hv.view_other (hne x hx)]; exact hJ.unsettled x (List.mem_cons_of_mem _ hx)
    · by_cases hx : x = p
      · subst hx
        refine (hJ.unsettled x (by simp) (by rw [← hg.kind]; exact hk)).given
          .closeall ev.tuple hg (Or.inr rfl) fun m hm => ?_
        cases ev <;> simp [AsyncEvent.tuple] at hm
      · rw [hv.view_other hx] at hk ⊢; exact hJ.one x hk

/-- The loop property: a tuple that carries no reply, and the state of the sweep. -/
def SweepingWith (tuple : Tuple) (l : List Ptr) (w : World) : Prop :=
  (∃ ev : AsyncEvent, tuple = ev.tuple) ∧ Sweeping l w

theorem SweepingWith.visits (tuple : Tuple) (p : Ptr) (l : List Ptr) (w : World) (h : Inv w)
    (hl : ∃ l₁, outstanding w.log = l₁ ++ p :: l) (hJ : SweepingWith tuple (p :: l) w) :
    (closeallVisit tuple w p).Ends (SweepingWith tuple l) fun _ => False := by
  have hv := hJ.2.visit hJ.1 h hl
  cases hc : closeallVisit tuple w p with
  | diverged => rw [hc] at hv; exact hv
  | raised w' e => rw [hc] at hv; exact hv
  | done w' => rw [hc] at hv; exact ⟨hJ.1, hv⟩

theorem Calls.sweeping (hn : Calls w) (hl : w.listening = true)
    (ho : ∀ p ∈ w.queued, (w.chans (w.heap p).chan).closed = false) :
    Sweeping (outstanding w.log) w := by
  have hb : w.conn.bus = true := by
    cases hb : w.conn.bus with
    | true => rfl
    | false => rw [hn.shut hb] at hl; simp at hl
  exact {
    bus := hb
    opened := fun x hx => ho x (hn.sound.inv.queued_eq ▸ hx)
    unsettled := fun x hx hk => (hn.single x hk).unsettled hb (decide_eq_true hx)
    one := fun x hk => (hn.single x hk).one
    serials := hn.serials }

theorem Sweeping.swept (hJ : Sweeping [] w₁) (hs : SweptFrom w₁ w') :
    (∀ x, (w'.view x).kind = .Call → Single w' x (w'.view x)) ∧ Serials w' := by
  refine ⟨fun x hk => ?_, hJ.serials.given (Nat.le_of_eq hs.serial.symm) (fun x => ?_) fun x hx => ?_⟩
  · rw [hs.views x] at hk ⊢
    exact Single.over (fun _ => rfl) (hJ.one x hk)
  · rw [hs.views x]
  · rw [hs.views x] at hx; exact hx

theorem Calls.callback (hn : Calls w) {ev : AsyncEvent} (hl : w.listening = true)
    (ho : ∀ p ∈ w.queued, (w.chans (w.heap p).chan).closed = false)
    (hw : (busCallback w ev).world? = some w') :
    (∀ x, (w'.view x).kind = .Call → Single w' x (w'.view x)) ∧ Serials w' ∧
      (w'.conn.bus = false → w'.listening = false) := by
  have hb := busCallback_swept SweepingWith.visits ev hn.sound.inv
    ⟨⟨ev, rfl⟩, hn.sweeping hl ho⟩
  cases hc : busCallback w ev with
  | diverged => rw [hc] at hb; exact absurd hb id
  | raised w₂ e => rw [hc] at hb; exact absurd hb id
  | done w₂ =>
    rw [hc] at hb hw
    obtain rfl := Option.some.inj hw
    obtain ⟨w₃, hJ, hs, hbus⟩ := hb
    obtain ⟨h₁, h₂⟩ := hJ.2.swept hs
    refine ⟨h₁, h₂, fun hf => ?_⟩
    rw [hbus, hJ.2.bus] at hf; simp at hf

theorem Calls.close (hn : Calls w)
    (ho : w.listening = true → ∀ p ∈ w.queued, (w.chans (w.heap p).chan).closed = false)
    (hw : (cfunCloseBus w).world? = some w') :
    (∀ x, (w'.view x).kind = .Call → Single w' x (w'.view x)) ∧ Serials w' ∧
      (w'.conn.bus = false → w'.listening = false) := by
  have hclosed : w'.conn.bus_stream = none → w'.conn.bus = false → w'.listening = false :=
    fun hst _ => by rw [World.listening, hst]
  cases hl : w.listening with
  | true =>
    have hb := cfunCloseBus_swept SweepingWith.visits hn.sound.inv
      ⟨⟨.close, rfl⟩, hn.sweeping hl (ho hl)⟩
    cases hc : cfunCloseBus w with
    | diverged => rw [hc] at hb; exact absurd hb id
    | raised w₂ e => rw [hc] at hb; exact absurd hb id
    | done w₂ =>
      rw [hc] at hb hw
      obtain rfl := Option.some.inj hw
      obtain ⟨_, hst, _, hb⟩ := hb
      rw [if_pos hl] at hb
      obtain ⟨w₃, hJ, hs⟩ := hb
      obtain ⟨h₁, h₂⟩ := hJ.2.swept hs
      exact ⟨h₁, h₂, hclosed hst⟩
  | false =>
    obtain ⟨hst, hbus, hv⟩ := cfunCloseBus_deaf hl hw
    refine ⟨fun x hk => ?_, ?_, hclosed hst⟩
    · rw [hv] at hk ⊢
      exact Single.over (fun hb => by rw [hbus] at hb; simp at hb) (hn.single x hk).one
    · have hserial : w'.serial = w.serial := by rw [hv]
      exact hn.serials.given (Nat.le_of_eq hserial.symm) (fun x => by rw [hv]; rfl)
        fun x hx => by rw [hv] at hx; exact hx

theorem Calls.step (hn : Calls w) {s : Step} (hok : CallOk w s) (hs : Async.step w s = some w') :
    Calls w' := by
  have he := step_effect hn.sound.inv hs
  have hsound := hn.sound.step hok.stepOk hs
  cases hsw : s.sweeps with
  | true =>
    have hsweep : (∀ x, (w'.view x).kind = .Call → Single w' x (w'.view x)) ∧ Serials w' ∧
        (w'.conn.bus = false → w'.listening = false) := by
      cases he with
      | hup hl hw => exact hn.callback hl (hok hl) hw
      | err hl hw => exact hn.callback hl (hok hl) hw
      | closeBus hw => exact hn.close hok hw
      | _ => simp [Step.sweeps] at hsw
    exact ⟨hsound, hsweep.1, hsweep.2.1, hsweep.2.2⟩
  | false =>
    obtain ⟨hbus, hlis⟩ := he.conn hsw
    have move : ∀ {x v}, Single w x v → Single w' x v := fun h =>
      ⟨fun hb => h.unsettled (hbus ▸ hb), fun hb => h.held (hbus ▸ hb), h.one⟩
    refine ⟨hsound, fun x hk => move ?_, hn.cookies he hsw, fun hb => ?_⟩
    · by_cases hx : s.subject w = some x
      · exact hn.subject hok he hsw hx hk
      · rw [he.others hsw hx] at hk ⊢; exact hn.single x hk
    · rw [hlis]; exact hn.shut (hbus ▸ hb)

/-! ### Runs -/

theorem Calls.once (hn : Calls w) : CallsOnce w where
  one p _ hk := (hn.single p hk).one.of_history
  cookies p q hp hq he :=
    hn.serials.inj p q ((mem_history rfl).mpr hp) ((mem_history rfl).mpr hq) he

/-- In a run whose steps meet `CallOk`, no call ever has two outcomes, even if a sweep that touches a
    freed record or a finalized object is taken to go on (`Sweepable` says when none does). -/
theorem calls_once (steps : List Step) (hok : Meets step CallOk initial steps) :
    Along step CallsOnce initial steps :=
  (hok.along (fun _ _ _ hn hok hs => hn.step hok hs) Calls.init).mono fun _ hn => hn.once

/-- The reply to the first call of a connection. -/
def firstReply : Message := { type := .methodReturn, replyCookie := some 1 }

theorem calls_once_answered :
    Along step CallsOnce initial [.callAsync 0 1, .reply 0 firstReply] := by
  refine calls_once _ fun w hw => ⟨trivial, fun _ _ => ⟨?_, trivial⟩⟩
  have hq : (step initial (.callAsync 0 1)).map (·.queued) = some [0] := by decide +kernel
  rw [hw] at hq
  have hone : w.queued = [0] := Option.some.inj hq
  show 0 ∈ w.queued
  simp [hone]

/-- A call that is told of the hang-up, and then gets its reply. -/
def lateReplyRun : List Step := [.callAsync 0 1, .returned 0, .hup, .reply 0 firstReply]

/-- The slot floats, so the sweep does not disconnect it and the timer still delivers the reply. -/
theorem lateReplyRun_twice : ¬ ∀ steps, Along step CallsOnce initial steps := by
  intro h
  have hrun : (exec step initial lateReplyRun).map
      (fun w => ((w.heap 0).kind, decide (.queued 0 ∈ w.log), (w.log.filter (·.writes 0)).length)) =
      some (.Call, true, 2) := by decide +kernel
  obtain ⟨w, hw, hview⟩ := Option.map_eq_some_iff.mp hrun
  simp only [Prod.mk.injEq, decide_eq_true_eq] at hview
  obtain ⟨hk, hq, htwo⟩ := hview
  have := (((h lateReplyRun).last hw).one 0 hq hk).once
  omega

end JanetSdbus.Async
