import JanetSdbus.Async.Aging
import JanetSdbus.Async.Close
import JanetSdbus.Signals.Rules

/-! The subscriptions of a proxy object.

    `:signal/subscribe` makes a match slot and stores it in a table under the name it was given;
    `:signal/unsubscribe` cancels what the table holds. The slot floats, so it outlives its handle:
    a second subscription to a name takes the first one's place in the table, and nobody can cancel
    that any more. `undoes` says that this is all that can go wrong. -/

namespace JanetSdbus.Signals
open Async Schemes.LinkedList Schemes.Run

inductive NameKind where | string | symbol | keyword
  deriving DecidableEq

/-- A Janet value that names a signal; `text` is `(string name)`. -/
structure Name where
  kind : NameKind
  text : List Char
  deriving DecidableEq

/-- What the methods of a proxy close over. -/
structure ProxyState where
  path : List Char
  interface : List Char

/-- The rule that `proxy-subscribe` has built. -/
def proxySubscribeRules (state : ProxyState) (name : Name) : List Char :=
  if name.text = "PropertiesChanged".toList then
    subscribePropertiesChangedRules state.interface none (some state.path)
  else subscribeSignalRules name.text none (some state.path) (some state.interface)

/-- A match slot that the proxy has made. -/
structure Subscription where
  slot : Ptr
  name : Name
  rules : List Char

/-- The connection and a proxy object. `made` is a ghost: all the slots it has ever made. -/
structure System where
  world : World
  state : ProxyState
  subscriptions : Name → Option Ptr
  made : List Subscription

/-- `(set ((self :signal/subscriptions) name) *slot*)`. -/
def System.put (sys : System) (w : World) (name : Name) (p : Ptr) : System :=
  { sys with
    world := w
    subscriptions := Function.update sys.subscriptions name (some p)
    made := ⟨p, name, proxySubscribeRules sys.state name⟩ :: sys.made }

/-- `rv` is what sd-bus returns for the match. The table is keyed by the name as it was given. -/
def proxySubscribe (sys : System) (name : Name) (c : ChanId) (rv : ℤ) : Option System :=
  (step sys.world (.matchAsync c rv)).bind fun w =>
    -- `match-async` has raised
    if rv < 0 then some { sys with world := w }
    else (step w (.returned sys.world.nextPtr)).bind fun w =>
      match sys.subscriptions name with
      | some old => (step w (.dropHandle old)).map fun w => sys.put w name sys.world.nextPtr
      | none => some (sys.put w name sys.world.nextPtr)

/-- `cancel`, and the table lets go of the handle. -/
def cancelSlot (w : World) (p : Ptr) : World :=
  let w := cfunCancelSlot w p
  w.setHandle p { w.handles p with ref := .dropped }

def proxyUnsubscribe (sys : System) (name : Name) : Except String System :=
  match sys.subscriptions name with
  | some p => .ok { sys with
      world := cancelSlot sys.world p
      subscriptions := Function.update sys.subscriptions name none }
  | none => .error ("unknown signal name: " ++ String.ofList name.text)

inductive Move where
  | subscribe (name : Name) (c : ChanId) (rv : ℤ)
  | unsubscribe (name : Name)
  /-- anything else on the connection -/
  | other (s : Step)

/-- The slots of the proxy are in its table, and nobody else has them. -/
def System.allows (sys : System) : Step → Bool
  | .returned p | .cancel p | .dropHandle p => sys.made.all fun s => s.slot ≠ p
  | _ => true

def move (sys : System) : Move → Option System
  | .subscribe name c rv => proxySubscribe sys name c rv
  | .unsubscribe name =>
    match proxyUnsubscribe sys name with
    | .ok sys' => some sys'
    | .error _ => some sys
  | .other s => if sys.allows s then (step sys.world s).map fun w => { sys with world := w } else none

/-- A proxy object as `proxy` returns it. -/
def start (state : ProxyState) : System := ⟨initial, state, fun _ => none, []⟩

/-- There is a slot for a signal that the proxy has made and that is still registered. -/
def System.live (sys : System) (text : List Char) : Prop :=
  ∃ s ∈ sys.made, s.name.text = text ∧ (sys.world.slots s.slot).connected = true

/-! ### Undoing -/

/-- The step leaves the live slots of the proxy alone: no message meets a closed channel, no match is
    refused by the bus, and the connection is not closed under them. -/
def Spares (sys : System) : Step → Prop
  | .matched p m => (∃ s ∈ sys.made, s.slot = p) → m.type = .other ∨ sys.world.opened p
  | .installed p m => (∃ s ∈ sys.made, s.slot = p) → ∀ error, m.type ≠ .methodError error
  | .hup | .err | .closeBus => ∀ text, ¬ sys.live text
  | _ => True

/-- What a call has to meet: a name is subscribed to when it has no live subscription, and
    unsubscribed from in the spelling it was subscribed to. -/
def MoveOk (sys : System) : Move → Prop
  | .subscribe name _ rv => rv < 0 ∨ ¬ sys.live name.text
  | .unsubscribe name => ∀ s ∈ sys.made, s.name.text = name.text →
      (sys.world.slots s.slot).connected = true → s.name = name
  | .other s => StepOk sys.world s ∧ Spares sys s

/-- The slot is off the bus for good, and nothing is written for it any more. -/
def Dead (sys : System) (p : Ptr) : Prop := ∀ moves sys', Meets move MoveOk sys moves →
  exec move sys moves = some sys' → (sys'.world.slots p).connected = false ∧
    ∀ src c t, .wrote src p c t ∈ sys'.world.log → .wrote src p c t ∈ sys.world.log

/-- What a call does. After a subscription the name can be unsubscribed from. An unsubscription
    raises if and only if the name has no live subscription, and when it returns all slots for the
    name are dead. -/
def Undoes (sys : System) : Move → System → Prop
  | .subscribe name _ rv, sys' => ¬ rv < 0 → ∃ sys'', proxyUnsubscribe sys' name = .ok sys''
  | .unsubscribe name, sys' =>
    ((∃ msg, proxyUnsubscribe sys name = .error msg) ↔ ¬ sys.live name.text) ∧
      ((∃ sys'', proxyUnsubscribe sys name = .ok sys'') →
        ∀ s ∈ sys'.made, s.name.text = name.text → Dead sys' s.slot)
  | .other _, _ => True

/-! ### A slot in the table -/

variable {w w' : World} {sys sys' : System} {p : Ptr} {name : Name} {c : ChanId}

/-- What the table holds: a registered, floating match, with one reference for the handle and one for
    the bus. -/
structure Held (p : Ptr) (v : View) : Prop where
  kind : v.kind = .Match
  outstanding : v.outstanding = true
  slot : v.slot.connected = true ∧ v.slot.floating = true ∧ v.slot.refs = 2
  handle : v.handle = ⟨some p, .user, false⟩

theorem logged_slot (w : World) (es : List Event) (p : Ptr) :
    (w.logged es).slots p = w.slots p ∧ (w.logged es).handles p = w.handles p := ⟨rfl, rfl⟩

/-- A reference that is taken and given back. -/
theorem slotUnref_slot (hr : 1 < (w.slots p).refs) :
    (slotUnref w p).slots p = { w.slots p with refs := (w.slots p).refs - 1 } ∧
      (slotUnref w p).handles p = w.handles p := by
  rw [slotUnref_more hr]
  exact ⟨World.setSlot_self .., rfl⟩

/-- A message that was handled leaves the slot as it was. -/
theorem processMatch_slot {m : Message} (hk : (w.heap p).kind = .Match) (hr : 0 < (w.slots p).refs)
    (hd : processMatch w p m = .done w') : w'.slots p = w.slots p ∧ w'.handles p = w.handles p := by
  have hall := messageHandler_match (P := fun w₁ => ∃ es, w₁ = (slotRef w p).logged es)
    (w := slotRef w p) (p := p) (m := m) hk fun es _ => ⟨es, rfl⟩
  have hslot : (slotRef w p).slots p = { w.slots p with refs := (w.slots p).refs + 1 } := World.setSlot_self ..
  rw [processMatch, Outcome.dispatched_done] at hd
  cases hm : messageHandler (slotRef w p) p m with
  | done w₁ =>
    rw [hm] at hall hd
    obtain ⟨es, rfl⟩ := hall
    simp only [Outcome.bind, Outcome.done.injEq] at hd
    subst hd
    have hmore : 1 < (((slotRef w p).logged es).slots p).refs := by
      rw [(logged_slot _ es p).1, hslot]
      exact Nat.succ_lt_succ hr
    obtain ⟨hslots, hhandles⟩ := slotUnref_slot hmore
    rw [hslots, hhandles, (logged_slot _ es p).1, hslot]
    exact ⟨rfl, rfl⟩
  | raised w₁ e => rw [hm] at hd; exact absurd hd (by simp [Outcome.bind])
  | diverged => rw [hm] at hd; exact absurd hd (by simp [Outcome.bind])

/-- The reply to AddMatch, if it is not an error, only ends the wait for it. -/
theorem processInstall_slot {m : Message} (hm : ∀ error, m.type ≠ .methodError error)
    (hr : 0 < (w.slots p).refs) : ∃ w', processInstall w p m = .done w' ∧
      w'.slots p = { w.slots p with awaiting := false } ∧ w'.handles p = w.handles p := by
  have hmore : 1 < (((slotEnter w p).touch .handler [p]).slots p).refs := by
    show 1 < ((slotEnter w p).slots p).refs
    rw [slotEnter_slot]
    exact Nat.succ_lt_succ hr
  obtain ⟨hslots, hhandles⟩ := slotUnref_slot hmore
  have hdone : processInstall w p m = .done (slotUnref ((slotEnter w p).touch .handler [p]) p) := by
    rw [processInstall, signalInstallHandler]
    cases hmt : m.type with
    | methodError error => exact absurd hmt (hm error)
    | _ => rfl
  refine ⟨_, hdone, hslots.trans ?_, hhandles⟩
  have henter : ((slotEnter w p).touch .handler [p]).slots p = (slotEnter w p).slots p := rfl
  rw [henter, slotEnter_slot]
  rfl

/-- The table's handle stays valid while nobody else cancels it and the slot is left alone. -/
theorem Held.step {s : Step} (hp : Held p (w.view p)) (h : Sound w) (hs : step w s = some w')
    (hlt : p < w.nextPtr) (hbus : w.conn.bus = true) (hsweeps : s.sweeps = false)
    (hcancel : s ≠ .cancel p) (hdrop : s ≠ .dropHandle p)
    (hmatched : ∀ m, s = .matched p m → m.type = .other ∨ w.opened p)
    (hinstalled : ∀ m, s = .installed p m → ∀ error, m.type ≠ .methodError error) : Held p (w'.view p) := by
  have he := step_effect h.inv hs
  by_cases hsub : s.subject w = some p
  swap
  · rw [he.others hsweeps hsub]; exact hp
  have hkind : (w.heap p).kind = .Match := hp.kind
  have hrefs : 0 < (w.slots p).refs := by
    have : (w.slots p).refs = 2 := hp.slot.2.2
    omega
  have huser : (w.handles p).ref = .user := congrArg Handle.ref hp.handle
  cases he with
  | callAsync => exact absurd (Option.some.inj hsub) (Nat.ne_of_gt hlt)
  | matchAsync => exact absurd (Option.some.inj hsub) (Nat.ne_of_gt hlt)
  | returned es _ hr _ =>
    obtain rfl := Option.some.inj hsub
    exact absurd (hr.symm.trans huser) (by decide)
  | reply hc _ _ _ _ =>
    obtain rfl := Option.some.inj hsub
    exact absurd ((World.callable_spec hc).2.2.1.symm.trans hkind) (by decide)
  | @matched q m _ hc hcase hout =>
    obtain rfl : q = p := Option.some.inj hsub
    have hdone : ∃ w₁, processMatch w q m = .done w₁ := by
      rcases hmatched m rfl with hm | hopen
      · obtain ⟨w₁, hd, _⟩ := processMatch_other (w := w) (p := q) hm
        exact ⟨w₁, hd⟩
      · exact processMatch_done hopen
    obtain ⟨w₁, hd⟩ := hdone
    simp only [Async.step, hd, Outcome.world?, Option.ite_none_right_eq_some, Option.some.injEq] at hs
    obtain ⟨_, rfl⟩ := hs
    obtain ⟨hslot, hhandle⟩ := processMatch_slot hkind hrefs hd
    have hview : (w.view q).kind = (w₁.view q).kind := by
      rcases hcase with hq | ⟨t, hg⟩
      · exact hq.view.kind.symm
      · exact hg.view.kind.symm
    have hsame : (w₁.view q).outstanding = (w.view q).outstanding := by simp only [World.view, hout]
    have hslot' : (w₁.view q).slot = (w.view q).slot := hslot
    exact ⟨hview.symm.trans hp.kind, hsame.trans hp.outstanding, by rw [hslot']; exact hp.slot,
      hhandle.trans hp.handle⟩
  | @installed q m _ hc hcase hout =>
    obtain rfl : q = p := Option.some.inj hsub
    have hm := hinstalled m rfl
    obtain ⟨w₁, hd, hslot, hhandle⟩ := processInstall_slot hm hrefs
    simp only [Async.step, hd, Outcome.world?, Option.ite_none_right_eq_some, Option.some.injEq] at hs
    obtain ⟨_, rfl⟩ := hs
    have hview : (w.view q).kind = (w₁.view q).kind := by
      rcases hcase with hq | ⟨t, hg⟩
      · exact hq.view.kind.symm
      · exact hg.view.kind.symm
    have hkeeps := hout fun hlast => hlast.1.elim fun e h => hm e h
    have hsame : (w₁.view q).outstanding = (w.view q).outstanding := by simp only [World.view, hkeeps]
    refine ⟨hview.symm.trans hp.kind, hsame.trans hp.outstanding, ?_, hhandle.trans hp.handle⟩
    have hslot' : (w₁.view q).slot = { w.slots q with awaiting := false } := hslot
    rw [hslot']
    exact hp.slot
  | cancel =>
    obtain rfl := Option.some.inj hsub
    exact absurd rfl hcancel
  | dropHandle =>
    obtain rfl := Option.some.inj hsub
    exact absurd rfl hdrop
  | gcHandle _ _ hr _ _ _ =>
    obtain rfl := Option.some.inj hsub
    exact absurd huser hr
  | dropChan => exact hp
  | closeChan => exact hp
  | gcChan _ => exact hp
  | busDrop _ hb _ => exact absurd (hb.symm.trans hbus) (by decide)
  | hup => simp [Step.sweeps] at hsweeps
  | err => simp [Step.sweeps] at hsweeps
  | closeBus => simp [Step.sweeps] at hsweeps

theorem slotFree_slot (w : World) (p : Ptr) : ((slotFree w p).slots p).connected = false := by
  obtain ⟨hs, _⟩ := destroy_frame (w.setSlot p { w.slots p with refs := 0, connected := false, awaiting := false }) p
  rw [slotFree, hs, World.setSlot_self]

theorem cancelSlot_view (w : World) (p : Ptr) : (cancelSlot w p).view p =
    { (cfunCancelSlot w p).view p with handle := { (cfunCancelSlot w p).handles p with ref := .dropped } } :=
  view_setHandle_self _

/-- Cancelling what the table holds takes the slot off the bus and the record out of the queue. -/
theorem Held.cancel (hp : Held p (w.view p)) (h : Inv w) : ((cancelSlot w p).view p).gone := by
  have hs : (w.handles p).slot = some p := congrArg Handle.slot hp.handle
  obtain ⟨hconn, hfloat, hrefs⟩ := hp.slot
  have hbus : w.busRef p = 1 := by
    have hf : (w.slots p).floating = true := hfloat
    have hc : (w.slots p).connected = true := hconn
    rw [World.busRef, hf, hc]
    rfl
  obtain ⟨y, he, _, hsum⟩ := h.unfloated hs
  have hsum' : y.refs + w.busRef p = 2 := hsum.trans hrefs
  have hlast : (((w.setSlot p y).setHandle p { w.handles p with slot := none }).slots p).refs ≤ 1 := by
    show ((w.setSlot p y).slots p).refs ≤ 1
    rw [World.setSlot_self]
    omega
  have hfree : cfunCancelSlot w p =
      (slotFree ((w.setSlot p y).setHandle p { w.handles p with slot := none }) p).note (.cancelled p) := by
    rw [cfunCancelSlot_some hs, he, releaseHandle_eq (w := w.setSlot p y) hs]
    exact congrArg (World.note · (.cancelled p)) (slotUnref_last hlast)
  rw [cancelSlot_view]
  have hout : p ∉ Async.outstanding (cfunCancelSlot w p).log := by
    rw [hfree]
    show p ∉ Async.outstanding (slotFree _ p).log
    rw [outstanding_slotFree]
    exact h.repr.nodup.not_mem_erase
  have hslot : ((cfunCancelSlot w p).slots p).connected = false := by
    rw [hfree]
    exact slotFree_slot _ p
  exact ⟨decide_eq_false hout, hslot⟩

/-! ### The invariant -/

/-- The table has the live slots of the proxy, and one key for each signal. -/
structure Listed (sys : System) : Prop where
  sound : Sound sys.world
  made : ∀ s ∈ sys.made, s.slot < sys.world.nextPtr
  once : ∀ s ∈ sys.made, ∀ s' ∈ sys.made, s.slot = s'.slot → s = s'
  held : ∀ name p, sys.subscriptions name = some p → Held p (sys.world.view p) ∧
    ∃ s ∈ sys.made, s.slot = p ∧ s.name = name
  kept : ∀ s ∈ sys.made, (sys.world.view s.slot).gone ∨ sys.subscriptions s.name = some s.slot
  alone : ∀ name name' p p', sys.subscriptions name = some p → sys.subscriptions name' = some p' →
    name.text = name'.text → name = name'
  bus : sys.world.conn.bus = false → ∀ name, sys.subscriptions name = none

theorem Listed.start (state : ProxyState) : Listed (start state) where
  sound := Sound.init
  made _ hs := absurd hs List.not_mem_nil
  once _ hs := absurd hs List.not_mem_nil
  held _ _ h := absurd h (by simp [Signals.start])
  kept _ hs := absurd hs List.not_mem_nil
  alone _ _ _ _ h := absurd h (by simp [Signals.start])
  bus _ _ := rfl

theorem Listed.live_iff (h : Listed sys) {text : List Char} :
    sys.live text ↔ ∃ name p, sys.subscriptions name = some p ∧ name.text = text := by
  constructor
  · rintro ⟨s, hs, htext, hconn⟩
    rcases h.kept s hs with hgone | hsub
    · exact absurd (hconn.symm.trans hgone.2) (by decide)
    · exact ⟨s.name, s.slot, hsub, htext⟩
  · rintro ⟨name, p, hsub, rfl⟩
    obtain ⟨hheld, s, hs, rfl, rfl⟩ := h.held name p hsub
    exact ⟨s, hs, rfl, hheld.slot.1⟩

/-- Without live subscriptions the table is empty. -/
theorem Listed.empty (h : Listed sys) (hnone : ∀ text, ¬ sys.live text) (name : Name) :
    sys.subscriptions name = none := by
  cases hsub : sys.subscriptions name with
  | none => rfl
  | some p => exact absurd (h.live_iff.mpr ⟨name, p, hsub, rfl⟩) (hnone _)

theorem Held.lt (hp : Held p (w.view p)) (h : Inv w) : p < w.nextPtr := by
  by_contra hge
  have hzero := h.fresh p (Nat.le_of_not_lt hge)
  have htwo : (w.slots p).refs = 2 := hp.slot.2.2
  omega

/-- The next state of the connection, and the same table. -/
theorem Listed.world {s : Step} (h : Listed sys) (hok : StepOk sys.world s) (hs : step sys.world s = some w')
    (hheld : ∀ name p, sys.subscriptions name = some p → Held p (w'.view p))
    (hbus : w'.conn.bus = false → ∀ name, sys.subscriptions name = none) :
    Listed { sys with world := w' } where
  sound := h.sound.step hok hs
  made s hs' := Nat.lt_of_lt_of_le (h.made s hs') (step_aged h.sound hs).2
  once := h.once
  held name p hsub := ⟨hheld name p hsub, (h.held name p hsub).2⟩
  kept s hs' := (h.kept s hs').imp_left fun hgone => hgone.aged ((step_aged h.sound hs).1 _ (h.made s hs'))
  alone := h.alone
  bus := hbus

theorem Listed.other {s : Step} (h : Listed sys) (hallows : sys.allows s = true)
    (hok : StepOk sys.world s) (hspares : Spares sys s) (hs : step sys.world s = some w') :
    Listed { sys with world := w' } := by
  cases hsw : s.sweeps with
  | true =>
    have hnone : ∀ name, sys.subscriptions name = none := by
      cases s with
      | hup => exact h.empty hspares
      | err => exact h.empty hspares
      | closeBus => exact h.empty hspares
      | _ => exact absurd hsw (by simp [Step.sweeps])
    refine h.world hok hs (fun name p hsub => ?_) fun _ => hnone
    exact absurd (hsub.symm.trans (hnone name)) (by simp)
  | false =>
    have he := step_effect h.sound.inv hs
    obtain ⟨hbus, _⟩ := he.conn hsw
    refine h.world hok hs (fun name p hsub => ?_) fun hb => h.bus (hbus.symm.trans hb)
    obtain ⟨hheld, s', hmem, rfl, _⟩ := h.held name p hsub
    have hopen : sys.world.conn.bus = true := by
      cases hb : sys.world.conn.bus with
      | true => rfl
      | false => exact absurd (hsub.symm.trans (h.bus hb name)) (by simp)
    refine hheld.step h.sound hs (hheld.lt h.sound.inv) hopen hsw ?_ ?_ ?_ ?_
    · rintro rfl
      exact of_decide_eq_true (List.all_eq_true.mp hallows s' hmem) rfl
    · rintro rfl
      exact of_decide_eq_true (List.all_eq_true.mp hallows s' hmem) rfl
    · rintro m rfl
      exact hspares ⟨s', hmem, rfl⟩
    · rintro m rfl
      exact hspares ⟨s', hmem, rfl⟩

/-! ### Unsubscribing -/

theorem cancelSlot_other {x : Ptr} (h : Inv w) (hx : x ≠ p) : (cancelSlot w p).view x = w.view x := by
  obtain ⟨w₁, he, hq, _⟩ := Quiet.cancel h p
  rw [cancelSlot, view_setHandle hx, he, view_note_cancelled hx]
  exact hq.view_other hx

/-- Two steps of the connection. -/
theorem cancelSlot_steps (hp : Held p (w.view p)) (h : Sound w) : Meets step StepOk w [.cancel p, .dropHandle p] ∧
    exec step w [.cancel p, .dropHandle p] = some (cancelSlot w p) := by
  have huser : (w.handles p).ref = .user := congrArg Handle.ref hp.handle
  have hlt := hp.lt h.inv
  obtain ⟨w₁, he, hq, _⟩ := Quiet.cancel h.inv p
  have hcancel : step w (.cancel p) = some (cfunCancelSlot w p) := if_pos ⟨hlt, huser⟩
  have hdrop : step (cfunCancelSlot w p) (.dropHandle p) = some (cancelSlot w p) := by
    have href : ((cfunCancelSlot w p).handles p).ref = .user := by
      rw [he]
      exact hq.view.ref.trans huser
    have hnext : p < (cfunCancelSlot w p).nextPtr := by
      rw [he]
      exact Nat.lt_of_lt_of_eq hlt hq.nextPtr.symm
    exact if_pos ⟨hnext, href⟩
  have hqueued : p ∈ w.queued := by
    rw [h.inv.queued_eq]
    exact of_decide_eq_true hp.outstanding
  constructor
  · exact fun w₁ _ => ⟨fun _ _ => .inl hqueued, fun w₂ _ => ⟨trivial, trivial⟩⟩
  · rw [exec, hcancel, Option.bind_some, exec, hdrop, Option.bind_some, exec]

theorem Listed.unsubscribe (h : Listed sys) (hsub : sys.subscriptions name = some p) :
    Listed { sys with
      world := cancelSlot sys.world p
      subscriptions := Function.update sys.subscriptions name none } := by
  obtain ⟨hheld, s₀, hmem₀, hslot₀, hname₀⟩ := h.held name p hsub
  obtain ⟨hok, hexec⟩ := cancelSlot_steps hheld h.sound
  have hrun : ∀ x, x < sys.world.nextPtr → _ := fun x hx => run_aged h.sound hok hexec hx
  have hother : ∀ x, x ≠ p → (cancelSlot sys.world p).view x = sys.world.view x :=
    fun x hx => cancelSlot_other h.sound.inv hx
  -- what the table still holds
  have hkeep : ∀ name' p', Function.update sys.subscriptions name none name' = some p' →
      name' ≠ name ∧ sys.subscriptions name' = some p' := by
    intro name' p' hupdate
    by_cases hname : name' = name
    · rw [hname, Function.update_self] at hupdate
      exact absurd hupdate (by simp)
    · rw [Function.update_of_ne hname] at hupdate
      exact ⟨hname, hupdate⟩
  refine ⟨(hrun p (hheld.lt h.sound.inv)).1, fun s hs => (hrun s.slot (h.made s hs)).2.1, h.once, ?_, ?_, ?_, ?_⟩
  · intro name' p' hupdate
    obtain ⟨hname, hsub'⟩ := hkeep name' p' hupdate
    obtain ⟨hheld', s, hs, hslot, hname'⟩ := h.held name' p' hsub'
    have hne : p' ≠ p := by
      rintro rfl
      obtain rfl := h.once s hs s₀ hmem₀ (hslot.trans hslot₀.symm)
      exact hname (hname'.symm.trans hname₀)
    have hview : (cancelSlot sys.world p).view p' = sys.world.view p' := hother p' hne
    refine ⟨?_, s, hs, hslot, hname'⟩
    show Held p' ((cancelSlot sys.world p).view p')
    rw [hview]
    exact hheld'
  · intro s hs
    rcases h.kept s hs with hgone | hsub'
    · exact .inl (hgone.aged (hrun s.slot (h.made s hs)).2.2)
    · by_cases hname : s.name = name
      · rw [hname, hsub] at hsub'
        rw [← Option.some.inj hsub']
        exact .inl (hheld.cancel h.sound.inv)
      · exact .inr (by rw [← hsub']; exact Function.update_of_ne hname _ _)
  · intro name₁ name₂ p₁ p₂ h₁ h₂ htext
    exact h.alone name₁ name₂ p₁ p₂ (hkeep _ _ h₁).2 (hkeep _ _ h₂).2 htext
  · intro hbus
    obtain ⟨w₁, he, hq, _⟩ := Quiet.cancel h.sound.inv p
    have hsame : (cancelSlot sys.world p).conn.bus = sys.world.conn.bus := by
      obtain ⟨es, f, _⟩ := hq
      show (cfunCancelSlot sys.world p).conn.bus = _
      rw [he]
      exact f.bus
    exact absurd (hsub.symm.trans (h.bus (hsame.symm.trans hbus) name)) (by simp)

/-! ### Subscribing -/

/-- The handle of a new match, when `match-async` has returned it. -/
theorem held_returned {rv : ℤ} {w₁ : World} (h : Sound w) (hrv : ¬ rv < 0)
    (hs₁ : step w (.matchAsync c rv) = some w₁) (hs₂ : step w₁ (.returned w.nextPtr) = some w') :
    Held w.nextPtr (w'.view w.nextPtr) ∧ w'.conn.bus = true := by
  have he₁ := step_effect h.inv hs₁
  have he₂ := step_effect (h.inv.step (s := .matchAsync c rv) trivial hs₁) hs₂
  obtain ⟨hbus₂, _⟩ := he₂.conn rfl
  cases he₁ with
  | matchAsync _ hguard hst =>
    have hview : w₁.view w.nextPtr = startView w c .Match := by
      rcases hst.subject with ⟨_, hv, _⟩ | ⟨hneg, _⟩
      · exact hv
      · exact absurd hneg hrv
    have hbus : w.conn.bus = true := hguard.resolve_left hrv
    cases he₂ with
    | returned es _ _ hes =>
      refine ⟨?_, hbus₂.trans (hst.bus.trans hbus)⟩
      have hhandle : w₁.handles w.nextPtr = (startView w c .Match).handle := congrArg View.handle hview
      rw [view_setHandle_self, view_returned hes, hview, hhandle]
      exact ⟨rfl, rfl, ⟨rfl, rfl, rfl⟩, rfl⟩

/-- A new slot for a name that has no live subscription. -/
theorem Listed.put (sys : System) (h : Listed { sys with world := w })
    (hsubs : ∀ name', sys.subscriptions name' ≠ none → name'.text ≠ name.text)
    (hheld : Held p (w.view p)) (hbus : w.conn.bus = true) (hnew : ∀ s ∈ sys.made, s.slot < p) :
    Listed (sys.put w name p) where
  sound := h.sound
  made s hs := by
    rcases List.mem_cons.mp hs with rfl | hs
    · exact hheld.lt h.sound.inv
    · exact h.made s hs
  once s hs s' hs' heq := by
    rcases List.mem_cons.mp hs with rfl | hs <;> rcases List.mem_cons.mp hs' with rfl | hs'
    · rfl
    · exact absurd heq.symm (Nat.ne_of_lt (hnew s' hs'))
    · exact absurd heq (Nat.ne_of_lt (hnew s hs))
    · exact h.once s hs s' hs' heq
  held name' p' hsub := by
    by_cases hname : name' = name
    · subst hname
      obtain rfl : p = p' := by simpa [System.put] using hsub
      exact ⟨hheld, _, List.mem_cons_self, rfl, rfl⟩
    · obtain ⟨hheld', s, hs, hs'⟩ := h.held name' p' (by simpa [System.put, hname] using hsub)
      exact ⟨hheld', s, List.mem_cons_of_mem _ hs, hs'⟩
  kept s hs := by
    rcases List.mem_cons.mp hs with rfl | hs
    · exact .inr (Function.update_self ..)
    · refine (h.kept s hs).imp_right fun hsub => ?_
      have hsub' : sys.subscriptions s.name = some s.slot := hsub
      have hne : s.name ≠ name := by
        rintro rfl
        exact hsubs s.name (by rw [hsub']; simp) rfl
      exact (Function.update_of_ne hne _ _).trans hsub'
  alone name₁ name₂ p₁ p₂ h₁ h₂ htext := by
    by_cases hname₁ : name₁ = name <;> by_cases hname₂ : name₂ = name
    · rw [hname₁, hname₂]
    · have h₂' : sys.subscriptions name₂ = some p₂ := by simpa [System.put, hname₂] using h₂
      exact absurd (htext.symm.trans (by rw [hname₁])) (hsubs name₂ (by rw [h₂']; simp))
    · have h₁' : sys.subscriptions name₁ = some p₁ := by simpa [System.put, hname₁] using h₁
      exact absurd (htext.trans (by rw [hname₂])) (hsubs name₁ (by rw [h₁']; simp))
    · have h₁' : sys.subscriptions name₁ = some p₁ := by simpa [System.put, hname₁] using h₁
      have h₂' : sys.subscriptions name₂ = some p₂ := by simpa [System.put, hname₂] using h₂
      exact h.alone name₁ name₂ p₁ p₂ h₁' h₂' htext
  bus hb := absurd (hb.symm.trans hbus) (by decide)

/-- A subscription is two steps of the connection, or one if `match-async` raises. -/
theorem Listed.subscribe {rv : ℤ} (h : Listed sys) (hok : MoveOk sys (.subscribe name c rv))
    (hm : proxySubscribe sys name c rv = some sys') : Listed sys' ∧
    (∃ steps, Meets step StepOk sys.world steps ∧ exec step sys.world steps = some sys'.world) ∧
    (¬ rv < 0 → sys'.subscriptions name = some sys.world.nextPtr) := by
  obtain ⟨w₁, hs₁, hm⟩ := Option.bind_eq_some_iff.mp hm
  have h₁ := h.other (s := .matchAsync c rv) rfl trivial trivial hs₁
  by_cases hrv : rv < 0
  · rw [if_pos hrv] at hm
    obtain rfl := Option.some.inj hm
    refine ⟨h₁, ⟨[.matchAsync c rv], fun _ _ => ⟨trivial, trivial⟩, ?_⟩, fun hno => absurd hrv hno⟩
    rw [exec, hs₁, Option.bind_some, exec]
  · rw [if_neg hrv] at hm
    obtain ⟨w₂, hs₂, hm⟩ := Option.bind_eq_some_iff.mp hm
    have hnew : ∀ s ∈ sys.made, s.slot < sys.world.nextPtr := h.made
    have hallows : ({ sys with world := w₁ } : System).allows (.returned sys.world.nextPtr) = true :=
      List.all_eq_true.mpr fun s hs => decide_eq_true (Nat.ne_of_lt (hnew s hs))
    have h₂ := h₁.other (s := .returned sys.world.nextPtr) hallows trivial trivial hs₂
    obtain ⟨hheld, hbus⟩ := held_returned h.sound hrv hs₁ hs₂
    have hlive : ¬ sys.live name.text := hok.resolve_left hrv
    have hsubs : ∀ name', sys.subscriptions name' ≠ none → name'.text ≠ name.text := by
      intro name' hsome htext
      obtain ⟨p, hp⟩ := Option.ne_none_iff_exists'.mp hsome
      exact hlive (h.live_iff.mpr ⟨name', p, hp, htext⟩)
    have hfree : sys.subscriptions name = none := by
      by_contra hsome
      exact hsubs name hsome rfl
    rw [hfree] at hm
    obtain rfl := Option.some.inj hm
    refine ⟨Listed.put sys h₂ hsubs hheld hbus hnew, ⟨[.matchAsync c rv, .returned sys.world.nextPtr],
      fun _ _ => ⟨trivial, fun _ _ => ⟨trivial, trivial⟩⟩, ?_⟩, fun _ => Function.update_self ..⟩
    rw [exec, hs₁, Option.bind_some, exec, hs₂, Option.bind_some, exec]
    rfl

/-! ### Runs -/

/-- A move keeps the invariant and is some steps of the connection. -/
theorem Listed.move {m : Move} (h : Listed sys) (hok : MoveOk sys m) (hm : move sys m = some sys') :
    Listed sys' ∧ ∃ steps, Meets step StepOk sys.world steps ∧ exec step sys.world steps = some sys'.world := by
  cases m with
  | subscribe name c rv =>
    obtain ⟨h', hsteps, _⟩ := h.subscribe hok hm
    exact ⟨h', hsteps⟩
  | unsubscribe name =>
    rw [Signals.move, proxyUnsubscribe] at hm
    cases hsub : sys.subscriptions name with
    | none =>
      rw [hsub] at hm
      obtain rfl := Option.some.inj hm
      exact ⟨h, [], trivial, rfl⟩
    | some p =>
      rw [hsub] at hm
      obtain rfl := Option.some.inj hm
      exact ⟨h.unsubscribe hsub, _, cancelSlot_steps (h.held name p hsub).1 h.sound⟩
  | other s =>
    rw [Signals.move, Option.ite_none_right_eq_some] at hm
    obtain ⟨hallows, hm⟩ := hm
    obtain ⟨w', hs, rfl⟩ := Option.map_eq_some_iff.mp hm
    refine ⟨h.other hallows hok.1 hok.2 hs, [s], fun _ _ => ⟨hok.1, trivial⟩, ?_⟩
    rw [exec, hs, Option.bind_some, exec]

/-- A slot that is off the bus, and its record out of the queue, is dead. -/
theorem Listed.dead (h : Listed sys) (hlt : p < sys.world.nextPtr) (hgone : (sys.world.view p).gone) :
    Dead sys p := by
  intro moves sys' hok hexec
  have hrun := hok.invariant (I := fun sys₁ => Listed sys₁ ∧ p < sys₁.world.nextPtr ∧
    Aged p (sys.world.view p) (sys₁.world.view p)) ?_ ⟨h, hlt, Aged.refl p _⟩ hexec
  · obtain ⟨_, _, haged⟩ := hrun
    refine ⟨(hgone.aged haged).2, fun src c t ht => ?_⟩
    rcases haged.written src c t ((mem_history rfl).mpr ht) with hold | hno
    · exact (mem_history rfl).mp hold
    · exact absurd hgone hno
  · rintro sys₁ m sys₂ ⟨h₁, hlt₁, haged₁⟩ hok₁ hm
    obtain ⟨h₂, steps, hmeets, hsteps⟩ := h₁.move hok₁ hm
    obtain ⟨_, hlt₂, haged₂⟩ := run_aged h₁.sound hmeets hsteps hlt₁
    exact ⟨h₂, hlt₂, haged₁.trans haged₂⟩

theorem Listed.moved {m : Move} (h : Listed sys) (hok : MoveOk sys m)
    (hm : Signals.move sys m = some sys') :
    Undoes sys m sys' := by
  have h' := (h.move hok hm).1
  cases m with
  | subscribe name c rv =>
    intro hrv
    have hsub := (h.subscribe hok hm).2.2 hrv
    rw [proxyUnsubscribe, hsub]
    exact ⟨_, rfl⟩
  | unsubscribe name =>
    have hlive : sys.live name.text ↔ sys.subscriptions name ≠ none := by
      constructor
      · rintro ⟨s, hs, htext, hconn⟩
        rcases h.kept s hs with hgone | hsub
        · exact absurd (hconn.symm.trans hgone.2) (by decide)
        · rw [hok s hs htext hconn] at hsub
          rw [hsub]
          simp
      · intro hsome
        obtain ⟨p, hsub⟩ := Option.ne_none_iff_exists'.mp hsome
        exact h.live_iff.mpr ⟨name, p, hsub, rfl⟩
    rw [Signals.move] at hm
    cases hsub : sys.subscriptions name with
    | none =>
      have herr : proxyUnsubscribe sys name = .error ("unknown signal name: " ++ String.ofList name.text) := by
        rw [proxyUnsubscribe, hsub]
      refine ⟨?_, fun ⟨_, hret⟩ => absurd (herr.symm.trans hret) (by simp)⟩
      rw [hlive, hsub, herr]
      simp
    | some p =>
      have hret : proxyUnsubscribe sys name = .ok { sys with
          world := cancelSlot sys.world p
          subscriptions := Function.update sys.subscriptions name none } := by rw [proxyUnsubscribe, hsub]
      rw [hret] at hm
      obtain rfl := Option.some.inj hm
      refine ⟨by rw [hlive, hsub, hret]; simp, fun _ s hs htext => ?_⟩
      refine h'.dead (h'.made s hs) ((h'.kept s hs).resolve_right fun hstill => ?_)
      -- a name in the table has another text
      have hne : s.name ≠ name := by
        rintro rfl
        exact absurd (hstill.symm.trans (Function.update_self ..)) (by simp)
      have hold : sys.subscriptions s.name = some s.slot := by
        rw [← hstill]
        exact (Function.update_of_ne hne _ _).symm
      exact hne (h.alone _ _ _ _ hold hsub htext)
  | other s => trivial

/-- In every run in which no name is subscribed to while it has a live subscription, subscriptions
    can be undone. -/
theorem undoes (state : ProxyState) (moves : List Move) (hok : Meets move MoveOk (start state) moves) :
    Each move Undoes (start state) moves :=
  hok.each (fun _ _ _ h hok hm => (h.move hok hm).1) (fun _ _ _ h hok hm => h.moved hok hm)
    (Listed.start state)

def changed : Name := ⟨.keyword, "Changed".toList⟩

def onceRun : List Move := [.subscribe changed 0 1, .unsubscribe changed]

def exampleProxy : ProxyState := ⟨"/org".toList, "org.example".toList⟩

theorem undoes_once : Each move Undoes (start exampleProxy) onceRun := by
  refine undoes exampleProxy onceRun fun s₁ h₁ => ⟨.inr ?_, fun s₂ _ => ⟨?_, trivial⟩⟩
  · rintro ⟨s, hs, _⟩
    exact absurd hs List.not_mem_nil
  · have hmade : (move (start exampleProxy) (.subscribe changed 0 1)).map (fun sys => sys.made.map (·.name)) =
        some [changed] := rfl
    rw [h₁] at hmade
    have hnames : s₁.made.map (·.name) = [changed] := Option.some.inj hmade
    intro s hs _ _
    have hmem : s.name ∈ s₁.made.map (·.name) := List.mem_map_of_mem hs
    rw [hnames] at hmem
    exact List.mem_singleton.mp hmem

/-- Two subscriptions to one signal, and one unsubscription. -/
def twiceRun : List Move := [.subscribe changed 0 1, .subscribe changed 1 1, .unsubscribe changed]

/-- The first slot is still registered. -/
theorem twiceRun_leaves : ¬ ∀ state moves, Each move Undoes (start state) moves := by
  intro h
  have hrun : (exec move (start exampleProxy) twiceRun).map (fun sys =>
      (sys.made.map fun s => (s.slot, s.name), (sys.world.slots 0).connected)) =
      some ([(1, changed), (0, changed)], true) := by decide +kernel
  obtain ⟨sys, hexec, hview⟩ := Option.map_eq_some_iff.mp hrun
  obtain ⟨hmade, hconn⟩ := Prod.mk.inj hview
  simp only [twiceRun, exec, Option.bind_eq_some_iff] at hexec
  obtain ⟨s₁, h₁, s₂, h₂, s₃, h₃, hlast⟩ := hexec
  obtain rfl := Option.some.inj hlast
  obtain ⟨_, hrest⟩ := h _ twiceRun s₁ h₁
  obtain ⟨hsecond, hrest⟩ := hrest s₂ h₂
  obtain ⟨⟨_, hdead⟩, _⟩ := hrest s₃ h₃
  have hret : ∃ sys'', proxyUnsubscribe s₂ changed = .ok sys'' := hsecond (by decide)
  have hmem : ((0 : Ptr), changed) ∈ s₃.made.map fun s => (s.slot, s.name) := by
    rw [hmade]
    simp
  obtain ⟨s, hs, heq⟩ := List.mem_map.mp hmem
  obtain ⟨hslot, hname⟩ := Prod.mk.inj heq
  have hoff := (hdead hret s hs (congrArg Name.text hname) [] s₃ trivial rfl).1
  rw [hslot, hconn] at hoff
  exact absurd hoff (by decide)

end JanetSdbus.Signals
