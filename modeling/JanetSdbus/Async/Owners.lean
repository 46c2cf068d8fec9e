import JanetSdbus.Async.Runs

/-! Who holds a record, and how often it is freed.

    The account of a record is what its slot, its handle and the log say about it: the reference
    count, the two holders it counts (the Janet handle, and the bus while the slot floats and is
    connected), and the number of times the record was freed. Every step changes the account of one
    record, whatever the queue looks like; only the sweep goes over several. An account that adds up
    keeps adding up, so a record is freed at most once, and as soon as it has no holder
    (`freed_exactly_once`). A callback that raises leaves behind the reference that sd-bus took for
    it; this is the `leak`. -/

namespace JanetSdbus.Async
open Schemes.LinkedList Schemes.Run

/-! ### Accounts -/

structure Account where
  refs : ℕ
  floating : Bool
  connected : Bool
  held : Bool
  freed : Bool
  frees : ℕ
  deriving DecidableEq

namespace Account

/-- The account of a record that does not exist yet. -/
def unborn : Account := ⟨0, false, false, false, false, 0⟩

/-- `sd_bus_slot_unref` -/
def unref (a : Account) : Account :=
  if a.refs ≤ 1 then { a with refs := 0, connected := false, freed := true, frees := a.frees + 1 }
  else { a with refs := a.refs - 1 }

/-- `bus_slot_disconnect` -/
def detach (a : Account) : Account :=
  if a.connected then
    if a.floating then { a with connected := false }.unref else { a with connected := false }
  else a

/-- `sd_bus_slot_set_floating(slot, 0)` -/
def unfloat (a : Account) : Account :=
  if a.floating = false ∨ a.connected = false then a else { a with floating := false }.unref

/-- The handle lets go. -/
def release (a : Account) : Account := if a.held then { a with held := false }.unref else a

/-- sd-bus takes a reference for a callback. -/
def ref (a : Account) : Account := { a with refs := a.refs + 1 }

/-- The account adds up: the count is that of the holders and of `leak` references that nobody will
    drop, and the record was freed once if the count is zero and not at all otherwise. -/
structure Ok (leak : ℕ) (a : Account) : Prop where
  refs : a.refs = a.held.toNat + (a.floating && a.connected).toNat + leak
  freed : a.freed = true ↔ a.refs = 0
  frees : a.frees = a.freed.toNat
  alive : a.connected = true → 0 < a.refs

variable {n : ℕ} {a : Account}

/-- Dropping one of the references. -/
theorem Ok.unref (h : a.Ok n) (b : Account) (hb : b.refs = a.refs) (hfreed : b.freed = a.freed)
    (hfrees : b.frees = a.frees) {k : ℕ}
    (hrest : a.refs = b.held.toNat + (b.floating && b.connected).toNat + k + 1) : b.unref.Ok k := by
  have hpos : a.freed = false := by
    rw [← Bool.not_eq_true, h.freed]
    omega
  rw [Account.unref]
  split
  · next hlast =>
    have hheld : b.held.toNat = 0 := by omega
    have hk : k = 0 := by omega
    exact ⟨by simp [hheld, hk], by simp, by simp [hfrees, h.frees, hpos], by simp⟩
  · next hmore =>
    refine ⟨by simp only; omega, ?_, by rw [hfrees, h.frees, hfreed], fun _ => by simp only; omega⟩
    simp only [hfreed, hpos]
    constructor
    · simp
    · intro hzero
      omega

theorem Ok.release (h : a.Ok n) : a.release.Ok n := by
  rw [Account.release]
  split
  · next hheld =>
    refine h.unref { a with held := false } rfl rfl rfl ?_
    have hrefs := h.refs
    rw [hheld] at hrefs
    simp only [Bool.toNat_true] at hrefs
    simp only [Bool.toNat_false]
    omega
  · exact h

theorem Ok.unfloat (h : a.Ok n) : a.unfloat.Ok n := by
  rw [Account.unfloat]
  split
  · exact h
  · next hno =>
    rw [not_or, Bool.not_eq_false, Bool.not_eq_false] at hno
    refine h.unref { a with floating := false } rfl rfl rfl ?_
    have hrefs := h.refs
    rw [hno.1, hno.2] at hrefs
    simp only [Bool.and_self, Bool.toNat_true] at hrefs
    simp only [Bool.false_and, Bool.toNat_false]
    omega

theorem Ok.detach (h : a.Ok n) : a.detach.Ok n := by
  rw [Account.detach]
  split
  · next hconnected =>
    have hrefs := h.refs
    split
    · next hfloating =>
      refine h.unref { a with connected := false } rfl rfl rfl ?_
      rw [hconnected, hfloating] at hrefs
      simp only [Bool.and_self, Bool.toNat_true] at hrefs
      simp only [Bool.and_false, Bool.toNat_false]
      omega
    · next hfloating =>
      rw [Bool.not_eq_true] at hfloating
      refine ⟨?_, h.freed, h.frees, by simp⟩
      rw [hfloating] at hrefs ⊢
      simpa using hrefs
  · exact h

/-- A callback begins. -/
theorem Ok.ref (h : a.Ok n) (hconnected : a.connected = true) : a.ref.Ok (n + 1) := by
  have hpos := h.alive hconnected
  have hfreed : a.freed = false := by
    rw [← Bool.not_eq_true, h.freed]
    omega
  refine ⟨?_, ?_, h.frees, fun _ => Nat.succ_pos _⟩
  · simp only [Account.ref]
    rw [h.refs]
    omega
  · simp [Account.ref, hfreed]

/-- A callback is over. -/
theorem Ok.finish (h : a.Ok (n + 1)) : a.unref.Ok n :=
  h.unref a rfl rfl rfl (by rw [h.refs]; omega)

end Account

/-! ### The account of a record -/

/-- How often the record was freed: by its destroy callback, or by the call that made it and never
    queued it. -/
def World.frees (w : World) (p : Ptr) : ℕ :=
  w.log.count (.destroyed p) + if p < w.nextPtr ∧ .queued p ∉ w.log then 1 else 0

def World.account (w : World) (p : Ptr) : Account where
  refs := (w.slots p).refs
  floating := (w.slots p).floating
  connected := (w.slots p).connected
  held := decide ((w.handles p).slot = some p)
  freed := w.freed p
  frees := w.frees p

/-- The step from `w` to `w'` does `f` to the account of `p` and leaves the others alone. -/
structure Moves (w w' : World) (p : Ptr) (f : Account → Account) : Prop where
  self : w'.account p = f (w.account p)
  others : ∀ x, x ≠ p → w'.account x = w.account x
  queued : ∀ x, .queued x ∈ w'.log → .queued x ∈ w.log
  own : ∀ x s, (w'.handles x).slot = some s → (w.handles x).slot = some s
  next : w'.nextPtr = w.nextPtr
  chans : w'.chans = w.chans

/-- Events that neither queue nor destroy a record. -/
def Event.neutral : Event → Bool
  | .queued _ | .destroyed _ => false
  | _ => true

section moves
variable {w w₁ w₂ : World} {p : Ptr} {f g : Account → Account}

theorem Moves.trans (h₁ : Moves w w₁ p f) (h₂ : Moves w₁ w₂ p g) : Moves w w₂ p (g ∘ f) where
  self := by rw [h₂.self, h₁.self]; rfl
  others x hx := (h₂.others x hx).trans (h₁.others x hx)
  queued x hx := h₁.queued x (h₂.queued x hx)
  own x s hs := h₁.own x s (h₂.own x s hs)
  next := h₂.next.trans h₁.next
  chans := h₂.chans.trans h₁.chans

/-- Two worlds with the same slots, handles and memory, and logs that differ in neutral events. -/
theorem Moves.neutral {es : List Event} (p : Ptr) (hlog : w₁.log = es ++ w.log)
    (hes : ∀ e ∈ es, e.neutral = true) (hslots : w₁.slots = w.slots) (hhandles : w₁.handles = w.handles)
    (hfreed : w₁.freed = w.freed) (hnext : w₁.nextPtr = w.nextPtr) (hchans : w₁.chans = w.chans) :
    Moves w w₁ p id := by
  have hqueued : ∀ x, .queued x ∉ es := fun x hmem => by simpa [Event.neutral] using hes _ hmem
  have hfrees : ∀ x, w₁.frees x = w.frees x := by
    intro x
    have hcount : es.count (.destroyed x) = 0 :=
      List.count_eq_zero.mpr fun hmem => by simpa [Event.neutral] using hes _ hmem
    simp only [World.frees, hlog, hnext, List.count_append, hcount, Nat.zero_add, List.mem_append,
      hqueued, false_or]
  have haccount : ∀ x, w₁.account x = w.account x := by
    intro x
    rw [World.account, World.account, hfrees, hslots, hhandles, hfreed]
  refine ⟨haccount p, fun x _ => haccount x, fun x hx => ?_, fun x s h => by rwa [hhandles] at h, hnext,
    hchans⟩
  rw [hlog] at hx
  exact (List.mem_append.mp hx).resolve_left (hqueued x)

theorem Moves.logged {es : List Event} (hes : ∀ e ∈ es, e.neutral = true) (w : World) (p : Ptr) :
    Moves w (w.logged es) p id := .neutral p rfl hes rfl rfl rfl rfl rfl

theorem Moves.note {e : Event} (he : e.neutral = true) (w : World) (p : Ptr) : Moves w (w.note e) p id :=
  have hes : ∀ e' ∈ [e], e'.neutral = true := fun _ hmem => List.mem_singleton.mp hmem ▸ he
  .logged hes w p

theorem neutral_of_plain {e : Event} (h : e.plain = true) : e.neutral = true := by
  cases e <;> simp_all [Event.plain, Event.neutral]

theorem freedOf_neutral (w : World) (site : Site) (ps : List Ptr) :
    ∀ e ∈ w.freedOf site ps, e.neutral = true := by
  intro e he
  obtain ⟨_, _, _, rfl⟩ := mem_freedOf.mp he
  rfl

theorem Moves.touch (w : World) (site : Site) (ps : List Ptr) (p : Ptr) : Moves w (w.touch site ps) p id :=
  .logged (freedOf_neutral w site ps) w p

theorem dequeueLog_neutral (w : World) (q : Ptr) : ∀ e ∈ w.dequeueLog q, e.neutral = true := by
  rw [World.dequeueLog]
  split
  · simp
  · exact freedOf_neutral w .dequeue _

theorem Moves.dequeue (w : World) (q p : Ptr) : Moves w (dequeuePending w q) p id := by
  rw [dequeuePending_eq']
  exact .neutral p rfl (dequeueLog_neutral w q) rfl rfl rfl rfl rfl

theorem Moves.setSlot (w : World) (p : Ptr) (x : SdBusSlot) : Moves w (w.setSlot p x) p
    fun a => { a with refs := x.refs, floating := x.floating, connected := x.connected } where
  self := by simp only [World.account, World.setSlot_self]; rfl
  others y hy := by simp only [World.account, World.setSlot_ne w x hy]; rfl
  queued _ hx := hx
  own _ _ hs := hs
  next := rfl
  chans := rfl

theorem Moves.setHandle (w : World) (p : Ptr) {x : Handle} (hx : x.slot = (w.handles p).slot ∨ x.slot = none) :
    Moves w (w.setHandle p x) p fun a => { a with held := decide (x.slot = some p) } where
  self := by simp only [World.account, World.setHandle_self]; rfl
  others y hy := by simp only [World.account, World.setHandle_ne w x hy]; rfl
  queued _ hx := hx
  own y s hs := by
    by_cases hy : y = p
    · subst hy
      rw [World.setHandle_self] at hs
      rcases hx with hx | hx
      · rwa [hx] at hs
      · rw [hx] at hs
        simp at hs
    · rwa [World.setHandle_ne w x hy] at hs
  next := rfl
  chans := rfl

/-- The destroy callback frees its record. -/
theorem Moves.destroy (w : World) (p : Ptr) : Moves w (destroyCallCallback w p) p
    fun a => { a with freed := true, frees := a.frees + 1 } := by
  obtain ⟨hslots, hhandles, hnext, hfreed⟩ := destroy_frame w p
  have hlog := destroy_log w p
  have hchans : (destroyCallCallback w p).chans = w.chans := by
    simp only [destroyCallCallback, dequeuePending_eq']
    rfl
  have hcount : ∀ x, (w.dequeueLog p).count (.destroyed x) = 0 := fun x =>
    List.count_eq_zero.mpr fun hmem => by simpa [Event.neutral] using dequeueLog_neutral w p _ hmem
  have hqueued : ∀ x, .queued x ∉ w.dequeueLog p := fun x hmem => by
    simpa [Event.neutral] using dequeueLog_neutral w p _ hmem
  refine ⟨?_, fun x hx => ?_, fun x hx => ?_, fun x s h => by rwa [hhandles] at h, hnext, hchans⟩
  · simp only [World.account, hslots, hhandles, hfreed, Function.update_self, World.frees, hlog, hnext,
      List.count_cons_self, List.count_append, hcount, List.mem_cons, List.mem_append, hqueued, false_or,
      Account.mk.injEq, true_and]
    simp only [reduceCtorEq, false_or]
    omega
  · have hne : (Event.destroyed p == Event.destroyed x) = false := by simp [Ne.symm hx]
    simp only [World.account, hslots, hhandles, hfreed, Function.update_of_ne hx, World.frees, hlog, hnext,
      List.count_cons, hne, List.count_append, hcount, List.mem_cons, List.mem_append, hqueued, false_or]
    simp
  · rw [hlog] at hx
    have hrest := (List.mem_cons.mp hx).resolve_left (by simp)
    exact (List.mem_append.mp hrest).resolve_left (hqueued x)

theorem Moves.congr (h : Moves w w₁ p f) (hfg : f (w.account p) = g (w.account p)) : Moves w w₁ p g :=
  ⟨h.self.trans hfg, h.others, h.queued, h.own, h.next, h.chans⟩

theorem Moves.refl (w : World) (p : Ptr) : Moves w w p id :=
  ⟨rfl, fun _ _ => rfl, fun _ hx => hx, fun _ _ hs => hs, rfl, rfl⟩

/-- The collector's marks on a handle are nobody's account. -/
theorem Moves.markHandle (w : World) (p : Ptr) {x : Handle} (hx : x.slot = (w.handles p).slot) :
    Moves w (w.setHandle p x) p id :=
  (Moves.setHandle w p (.inl hx)).congr (by rw [hx]; rfl)

theorem Moves.unref (w : World) (p : Ptr) : Moves w (slotUnref w p) p Account.unref := by
  by_cases hlast : (w.slots p).refs ≤ 1
  · have hunref : (w.account p).unref = { w.account p with
        refs := 0, connected := false, freed := true, frees := (w.account p).frees + 1 } := if_pos hlast
    rw [slotUnref_last hlast]
    exact ((Moves.setSlot w p _).trans (Moves.destroy _ p)).congr hunref.symm
  · have hunref : (w.account p).unref = { w.account p with refs := (w.account p).refs - 1 } :=
      if_neg hlast
    rw [slotUnref_more (Nat.lt_of_not_le hlast)]
    exact (Moves.setSlot w p _).congr hunref.symm

theorem Moves.detach (w : World) (p : Ptr) : Moves w (slotDetach w p) p Account.detach := by
  have hdisconnect : Moves w (slotDisconnect w p) p fun a => { a with connected := false } :=
    (Moves.setSlot w p _).congr rfl
  rw [slotDetach]
  split
  · next hconnected =>
    have hdetach : (w.account p).detach =
        if (w.account p).floating then { w.account p with connected := false }.unref
        else { w.account p with connected := false } := if_pos hconnected
    split
    · next hfloating => exact (hdisconnect.trans (Moves.unref _ p)).congr (hdetach.trans (if_pos hfloating)).symm
    · next hfloating => exact hdisconnect.congr (hdetach.trans (if_neg hfloating)).symm
  · next hconnected => exact (Moves.refl w p).congr (if_neg hconnected).symm

theorem Moves.unfloat (w : World) (p : Ptr) : Moves w (slotSetFloating w p false) p Account.unfloat := by
  rw [slotSetFloating]
  split
  · next hno => exact (Moves.refl w p).congr (if_pos hno).symm
  · next hno =>
    have hunfloat : (w.account p).unfloat = { w.account p with floating := false }.unref := if_neg hno
    have hclear : Moves w (w.setSlot p { w.slots p with floating := false }) p
        fun a => { a with floating := false } := (Moves.setSlot w p _).congr rfl
    exact (hclear.trans (Moves.unref _ p)).congr hunfloat.symm

theorem Moves.release (hown : ∀ s, (w.handles p).slot = some s → s = p) :
    Moves w (releaseHandle w p) p Account.release := by
  cases hs : (w.handles p).slot with
  | none =>
    have hheld : ¬ (w.account p).held = true := by simp [World.account, hs]
    rw [releaseHandle_none hs]
    exact (Moves.refl w p).congr (if_neg hheld).symm
  | some s =>
    obtain rfl := hown s hs
    have hheld : (w.account s).held = true := by simp [World.account, hs]
    have hrelease : (w.account s).release = { w.account s with held := false }.unref := if_pos hheld
    rw [releaseHandle_eq hs]
    have hclear : Moves w (w.setHandle s { w.handles s with slot := none }) s
        fun a => { a with held := false } := (Moves.setHandle w s (.inr rfl)).congr (by simp)
    exact (hclear.trans (Moves.unref _ s)).congr hrelease.symm

theorem Moves.ref (w : World) (p : Ptr) : Moves w (slotRef w p) p Account.ref :=
  (Moves.setSlot w p _).congr rfl

theorem Moves.enter (w : World) (p : Ptr) : Moves w (slotEnter w p) p Account.ref :=
  ((Moves.setSlot w p _).trans (Moves.ref _ p)).congr rfl

end moves

/-! ### Callbacks -/

/-- Some channel is closed: a callback may raise. -/
def World.anyClosed (w : World) : Prop := ∃ c, (w.chans c).closed = true

theorem channelGive_moves (w : World) (src : Source) (q : Ptr) (t : Tuple) (p : Ptr) :
    (channelGive w src q t).Ends (Moves w · p id) fun w' => Moves w w' p id ∧ w.anyClosed := by
  have hfault : ∀ e ∈ w.chanFault q, e.neutral = true := fun e he =>
    neutral_of_plain (chanFault_plain w q e he)
  rw [channelGive_eq]
  split
  · next hclosed => exact ⟨.logged hfault w p, _, hclosed⟩
  · refine Moves.logged (fun e he => ?_) w p
    rcases List.mem_cons.mp he with rfl | he
    · rfl
    · exact hfault e he

/-- What comes before a callback's write moves nothing. -/
theorem Outcome.Ends.moved {w w₁ : World} {p : Ptr} {f : Account → Account} {o : Outcome}
    (hm : Moves w w₁ p f) (h : o.Ends (Moves w₁ · p id) fun w' => Moves w₁ w' p id ∧ w₁.anyClosed) :
    o.Ends (Moves w · p f) fun w' => Moves w w' p f ∧ w.anyClosed := by
  cases o with
  | done w' => exact hm.trans h
  | raised w' e => exact ⟨hm.trans h.1, by rw [World.anyClosed, ← hm.chans]; exact h.2⟩
  | diverged => exact h

theorem messageHandler_moves (w : World) (p : Ptr) (m : Message) :
    (messageHandler w p m).Ends (Moves w · p id) fun w' => Moves w w' p id ∧ w.anyClosed := by
  have htouch : Moves w (w.touch .handler [p]) p id := Moves.touch w _ _ p
  have hunlink : ∀ (b : Prop) [Decidable b], Moves w
      (if b then (dequeuePending (w.touch .handler [p]) p).note (.answered p)
        else w.touch .handler [p]) p id := by
    intro b _
    split
    · exact (htouch.trans (Moves.dequeue _ p p)).trans (Moves.note rfl _ p)
    · exact htouch
  rw [messageHandler]
  cases m.type with
  | methodReturn => exact .moved (hunlink _) (channelGive_moves _ _ _ _ _)
  | methodCall => exact .moved htouch (channelGive_moves _ _ _ _ _)
  | signal => exact .moved htouch (channelGive_moves _ _ _ _ _)
  | methodError error => exact .moved (hunlink _) (channelGive_moves _ _ _ _ _)
  | other => exact htouch

theorem signalInstallHandler_moves (w : World) (p : Ptr) (m : Message) :
    (signalInstallHandler w p m).Ends (Moves w · p id) fun w' => Moves w w' p id ∧ w.anyClosed := by
  have htouch : Moves w (w.touch .handler [p]) p id := Moves.touch w _ _ p
  rw [signalInstallHandler]
  cases m.type with
  | methodError error => exact .moved htouch (channelGive_moves _ _ _ _ _)
  | _ => exact htouch

/-! ### Owned records -/

/-- Every record's account adds up, with a leak of `leak p` references. -/
structure Owned (leak : Ptr → ℕ) (w : World) : Prop where
  own : ∀ p s, (w.handles p).slot = some s → s = p
  ok : ∀ p, p < w.nextPtr → (w.account p).Ok (leak p)
  unborn : ∀ p, w.nextPtr ≤ p → w.account p = .unborn
  fresh : ∀ p, w.nextPtr ≤ p → .queued p ∉ w.log ∧ leak p = 0

theorem Owned.init : Owned (fun _ => 0) initial where
  own p s hs := by simp [initial] at hs
  ok p hp := absurd hp (Nat.not_lt_zero p)
  unborn p _ := by simp [World.account, World.frees, initial, Account.unborn]
  fresh p _ := by simp [initial]

section owned
variable {leak : Ptr → ℕ} {w w' : World} {p : Ptr} {f : Account → Account} {n : ℕ}

/-- The record of a callback that raised keeps what sd-bus held. -/
theorem Owned.moves (h : Owned leak w) (hm : Moves w w' p f) (hp : p < w.nextPtr)
    (hok : (f (w.account p)).Ok n) : Owned (Function.update leak p n) w' where
  own x s hs := h.own x s (hm.own x s hs)
  ok x hx := by
    by_cases hxp : x = p
    · subst hxp
      rwa [hm.self, Function.update_self]
    · rw [hm.others x hxp, Function.update_of_ne hxp]
      exact h.ok x (hm.next ▸ hx)
  unborn x hx := by
    rw [hm.next] at hx
    have hxp : x ≠ p := Nat.ne_of_gt (Nat.lt_of_lt_of_le hp hx)
    rw [hm.others x hxp]
    exact h.unborn x hx
  fresh x hx := by
    rw [hm.next] at hx
    have hxp : x ≠ p := Nat.ne_of_gt (Nat.lt_of_lt_of_le hp hx)
    rw [Function.update_of_ne hxp]
    exact ⟨fun hq => (h.fresh x hx).1 (hm.queued x hq), (h.fresh x hx).2⟩

theorem Owned.same (h : Owned leak w) (hm : Moves w w' p f) (hp : p < w.nextPtr)
    (hok : ∀ n, (w.account p).Ok n → (f (w.account p)).Ok n) : Owned leak w' := by
  have howned := h.moves hm hp (hok _ (h.ok p hp))
  rwa [Function.update_eq_self] at howned

theorem Moves.account_eq (hm : Moves w w' p id) (x : Ptr) : w'.account x = w.account x := by
  by_cases hxp : x = p
  · subst hxp; exact hm.self
  · exact hm.others x hxp

theorem Owned.unmoved (h : Owned leak w) (hm : Moves w w' p id) : Owned leak w' where
  own x s hs := h.own x s (hm.own x s hs)
  ok x hx := by rw [hm.account_eq x]; exact h.ok x (hm.next ▸ hx)
  unborn x hx := by rw [hm.account_eq x]; exact h.unborn x (hm.next ▸ hx)
  fresh x hx := by
    have hfresh := h.fresh x (hm.next ▸ hx)
    exact ⟨fun hq => hfresh.1 (hm.queued x hq), hfresh.2⟩

theorem Owned.release (h : Owned leak w) (p : Ptr) :
    Owned leak (releaseHandle w p) ∧ (releaseHandle w p).chans = w.chans := by
  have hm := Moves.release (w := w) (p := p) fun s => h.own p s
  refine ⟨?_, hm.chans⟩
  by_cases hp : p < w.nextPtr
  · exact h.same hm hp fun _ hok => hok.release
  · have hunborn : (w.account p).release = w.account p := by
      rw [h.unborn p (Nat.le_of_not_lt hp)]
      rfl
    exact h.unmoved (hm.congr hunborn)

/-! ### Queueing a new record -/

/-- `w'` has one record more, with the account `a`. -/
structure Adds (w w' : World) (a : Account) : Prop where
  self : w'.account w.nextPtr = a
  others : ∀ x, x ≠ w.nextPtr → w'.account x = w.account x
  queued : ∀ x, x ≠ w.nextPtr → .queued x ∈ w'.log → .queued x ∈ w.log
  own : ∀ x s, (w'.handles x).slot = some s → s = x ∨ (w.handles x).slot = some s
  next : w'.nextPtr = w.nextPtr + 1
  chans : w'.chans = w.chans

theorem Owned.adds {a : Account} (h : Owned leak w) (hm : Adds w w' a) (hok : a.Ok 0) :
    Owned leak w' where
  own x s hs := (hm.own x s hs).elim id (h.own x s)
  ok x hx := by
    by_cases hxp : x = w.nextPtr
    · subst hxp
      rwa [hm.self, (h.fresh _ (Nat.le_refl _)).2]
    · rw [hm.others x hxp]
      rw [hm.next] at hx
      exact h.ok x (Nat.lt_of_le_of_ne (Nat.le_of_lt_succ hx) hxp)
  unborn x hx := by
    rw [hm.next] at hx
    rw [hm.others x (Nat.ne_of_gt hx)]
    exact h.unborn x (Nat.le_of_lt hx)
  fresh x hx := by
    rw [hm.next] at hx
    have hfresh := h.fresh x (Nat.le_of_lt hx)
    exact ⟨fun hq => hfresh.1 (hm.queued x (Nat.ne_of_gt hx) hq), hfresh.2⟩

/-- What the call leaves of a record that sd-bus did not accept. -/
def Account.refused : Account := { Account.unborn with freed := true, frees := 1 }

/-- A queued record: the handle and the bus refer to it. -/
def Account.accepted : Account :=
  { refs := 2, floating := true, connected := true, held := true, freed := false, frees := 0 }

theorem Account.refused_ok : Account.refused.Ok 0 := ⟨rfl, by decide, rfl, by decide⟩

theorem Account.accepted_ok : Account.accepted.Ok 0 := ⟨rfl, by decide, rfl, by decide⟩

theorem Owned.undestroyed (h : Owned leak w) : w.log.count (.destroyed w.nextPtr) = 0 := by
  have hfrees : w.frees w.nextPtr = 0 := congrArg Account.frees (h.unborn _ (Nat.le_refl _))
  rw [World.frees] at hfrees
  omega

/-- What a new record does not touch. -/
theorem account_beside {x : Ptr} (hx : x ≠ w.nextPtr) (hslots : w'.slots x = w.slots x)
    (hhandles : w'.handles x = w.handles x) (hfreed : w'.freed x = w.freed x)
    (hcount : w'.log.count (.destroyed x) = w.log.count (.destroyed x))
    (hqueued : .queued x ∈ w'.log ↔ .queued x ∈ w.log) (hnext : w'.nextPtr = w.nextPtr + 1) :
    w'.account x = w.account x := by
  have hlt : x < w.nextPtr + 1 ↔ x < w.nextPtr :=
    ⟨fun h => Nat.lt_of_le_of_ne (Nat.le_of_lt_succ h) hx, Nat.lt_succ_of_lt⟩
  simp only [World.account, World.frees, hslots, hhandles, hfreed, hcount, hqueued, hnext, hlt]

theorem startAsync_refused (h : Owned leak w) (c : ChanId) (kind : Kind) {rv : ℤ} (hrv : rv < 0)
    (hs : (startAsync w c kind rv).world? = some w') : Adds w w' .refused := by
  have hunborn := h.unborn w.nextPtr (Nat.le_refl _)
  have hfresh := (h.fresh w.nextPtr (Nat.le_refl _)).1
  simp only [startAsync, hrv, if_true, Outcome.world?, Option.some.injEq] at hs
  subst hs
  refine ⟨?_, fun x hx => ?_, fun x _ hq => hq, fun x s hs => ?_, rfl, rfl⟩
  · simp only [World.account, Account.unborn, Account.mk.injEq] at hunborn
    simp [World.account, World.frees, initCallbackState, Account.refused, Account.unborn, hunborn,
      h.undestroyed, hfresh]
  · refine account_beside hx rfl ?_ ?_ rfl Iff.rfl rfl
    · simp [initCallbackState, hx]
    · simp [initCallbackState, hx]
  · by_cases hx : x = w.nextPtr
    · subst hx
      simp [initCallbackState] at hs
    · exact .inr (by simpa [initCallbackState, hx] using hs)

/-- Linking a record in front of the queue. -/
theorem queuePending_beside (w : World) (q : Ptr) : ∃ es, (∀ e ∈ es, e.neutral = true) ∧
    (queuePending w q).log = es ++ w.log ∧ (queuePending w q).slots = w.slots ∧
    (queuePending w q).handles = w.handles ∧ (queuePending w q).freed = w.freed ∧
    (queuePending w q).nextPtr = w.nextPtr ∧ (queuePending w q).chans = w.chans := by
  simp only [queuePending]
  split
  · exact ⟨_, freedOf_neutral _ .queue _, rfl, rfl, rfl, rfl, rfl, rfl⟩
  · exact ⟨[], by simp, rfl, rfl, rfl, rfl, rfl, rfl⟩

theorem startAsync_adds (h : Owned leak w) (c : ChanId) (kind : Kind) {rv : ℤ} (hrv : ¬ rv < 0)
    (hs : (startAsync w c kind rv).world? = some w') : Adds w w' .accepted := by
  rw [startAsync_accepted hrv] at hs
  obtain rfl := Option.some.inj hs
  obtain ⟨es, hes, hlog, hslots, hhandles, hfreed, hnext, hchans⟩ :=
    queuePending_beside (startState w c kind) w.nextPtr
  generalize queuePending (startState w c kind) w.nextPtr = v at *
  rw [startState_eq] at hlog hslots hhandles hfreed hnext hchans
  have hcount : ∀ x, es.count (.destroyed x) = 0 := fun x =>
    List.count_eq_zero.mpr fun hmem => by simpa [Event.neutral] using hes _ hmem
  have hqueued : ∀ x, .queued x ∉ es := fun x hmem => by simpa [Event.neutral] using hes _ hmem
  refine ⟨?_, fun x hx => ?_, fun x hx hq => ?_, fun x s hs => ?_, hnext, hchans⟩
  · simp [World.account, World.frees, World.note, hlog, hslots, hhandles, hfreed, hnext, hcount,
      h.undestroyed, Account.accepted]
  · refine account_beside hx ?_ ?_ ?_ ?_ ?_ hnext
    · simp [World.note, hslots, hx]
    · simp [World.note, hhandles, hx]
    · simp [World.note, hfreed, hx]
    · simp [World.note, hlog, hcount]
    · simp [World.note, hlog, hqueued, hx]
  · simpa [World.note, hlog, hqueued, hx] using hq
  · by_cases hx : x = w.nextPtr
    · subst hx
      simp only [World.note, hhandles, Function.update_self, Option.some.injEq] at hs
      exact .inl hs.symm
    · simp only [World.note, hhandles, Function.update_of_ne hx] at hs
      exact .inr hs

theorem Owned.start (h : Owned leak w) (c : ChanId) (kind : Kind) (rv : ℤ)
    (hs : (startAsync w c kind rv).world? = some w') : Owned leak w' ∧ w'.chans = w.chans := by
  by_cases hrv : rv < 0
  · have hadds := startAsync_refused h c kind hrv hs
    exact ⟨h.adds hadds Account.refused_ok, hadds.chans⟩
  · have hadds := startAsync_adds h c kind hrv hs
    exact ⟨h.adds hadds Account.accepted_ok, hadds.chans⟩

end owned

/-! ### Sweeps -/

/-- If the function comes out at all, every record is still accounted for. -/
def Sweeps (leak : Ptr → ℕ) (w : World) (o : Outcome) : Prop :=
  ∀ w', o.world? = some w' → Owned leak w' ∧ w'.chans = w.chans

section sweeps
variable {leak : Ptr → ℕ} {w : World}

theorem Sweeps.bind {o : Outcome} {f : World → Outcome} (h : Sweeps leak w o)
    (hf : ∀ w₁, Owned leak w₁ → Sweeps leak w₁ (f w₁)) : Sweeps leak w (o.bind f) := by
  cases o with
  | done w₁ =>
    obtain ⟨howned, hchans⟩ := h w₁ rfl
    intro w' hw'
    obtain ⟨h₁, h₂⟩ := hf w₁ howned w' hw'
    exact ⟨h₁, h₂.trans hchans⟩
  | raised w₁ e => exact h
  | diverged => intro w' hw'; simp [Outcome.bind, Outcome.world?] at hw'

/-- Steps that leave the accounts alone. -/
theorem Sweeps.done {w' : World} (h : Owned leak w') (hchans : w'.chans = w.chans) :
    Sweeps leak w (.done w') := by
  intro w'' hw''
  obtain rfl := Option.some.inj hw''
  exact ⟨h, hchans⟩

theorem Owned.visit (h : Owned leak w) (tuple : Tuple) (p : Ptr) :
    Sweeps leak w (closeallVisit tuple w p) := by
  cases hc : (w.chans (w.heap p).chan).closed with
  | true =>
    have hneutral : ∀ e ∈ w.chanFault p ++ w.freedOf .closeall [p], e.neutral = true := fun e he =>
      neutral_of_plain (plain_append (freedOf_plain closeall_ne_dequeue w [p]) (chanFault_plain w p) e he)
    rw [closeallVisit_closed hc]
    intro w' hw'
    obtain rfl := Option.some.inj hw'
    exact ⟨h.unmoved (Moves.logged hneutral w p), rfl⟩
  | false =>
    have hneutral : ∀ e ∈ w.closeallLog tuple p, e.neutral = true := fun e he =>
      neutral_of_plain (closeallLog_plain w tuple p e he)
    have hlogged := h.unmoved (Moves.logged hneutral w p)
    obtain ⟨hreleased, hchans⟩ := hlogged.release p
    rw [closeallVisit_open hc]
    exact .done (hreleased.unmoved (Moves.touch _ _ _ p)) hchans

theorem Owned.loop (tuple : Tuple) (n : ℕ) (q : Option Ptr) (h : Owned leak w) :
    Sweeps leak w (closeallLoop tuple n q w) := by
  induction n generalizing q w with
  | zero =>
    cases q with
    | none => exact .done h rfl
    | some p => intro w' hw'; simp [closeallLoop, Outcome.world?] at hw'
  | succ n ih =>
    cases q with
    | none => exact .done h rfl
    | some p =>
      rw [closeallLoop_some]
      exact (h.visit tuple p).bind fun w₁ h₁ => ih _ h₁

theorem Owned.setConn (h : Owned leak w) (conn : Conn) : Owned leak { w with conn := conn } :=
  h.unmoved (.neutral 0 (List.nil_append _).symm (by simp) rfl rfl rfl rfl rfl)

theorem Owned.closeall (h : Owned leak w) (tuple : Tuple) : Sweeps leak w (closeallPending w tuple) := by
  rw [closeallPending]
  split
  · exact .done h rfl
  · refine (h.loop tuple _ _).bind fun w₁ h₁ => ?_
    exact .done ((h₁.setConn _).unmoved (Moves.note rfl _ 0)) rfl

theorem Owned.callback (h : Owned leak w) (ev : AsyncEvent) : Sweeps leak w (busCallback w ev) := by
  cases ev <;> exact (h.closeall _).bind fun w₁ h₁ => .done (h₁.setConn _) rfl

theorem Owned.close (h : Owned leak w) : Sweeps leak w (cfunCloseBus w) := by
  refine Sweeps.bind ?_ fun w₁ h₁ => .done (h₁.setConn _) rfl
  rw [closeBusStream]
  split
  · exact .done h rfl
  · refine Sweeps.bind ?_ fun w₁ h₁ => .done (h₁.setConn _) rfl
    split
    · exact h.callback .close
    · exact .done h rfl

end sweeps

/-! ### Dispatch -/

/-- sd-bus held a reference for the callback: it gave it back, or the callback raised. -/
def Called (w : World) (p : Ptr) (o : Outcome) : Prop :=
  o.Ends (fun w' => ∃ f, Moves w w' p f ∧ ∀ n, (w.account p).Ok n → (w.account p).connected = true →
    (f (w.account p)).Ok n) fun w' => Moves w w' p Account.ref ∧ w.anyClosed

section dispatch
variable {leak : Ptr → ℕ} {w w' w₁ : World} {p : Ptr} {o : Outcome}

/-- A callback and what sd-bus does after it. -/
theorem Called.intro {after : World → World} {f : Account → Account} (hm : Moves w w₁ p Account.ref)
    (ho : o.Ends (Moves w₁ · p id) fun w' => Moves w₁ w' p id ∧ w₁.anyClosed)
    (hafter : ∀ w₂, Moves w₂ (after w₂) p f) (hf : ∀ a n, Account.Ok (n + 1) a → (f a).Ok n) :
    Called w p (o.bind fun w₂ => .done (after w₂)).dispatched := by
  have hmoved := ho.moved hm
  cases o with
  | done w₂ => exact ⟨_, hmoved.trans (hafter w₂), fun n hok hconnected => hf _ n (hok.ref hconnected)⟩
  | raised w₂ e =>
    have hbusy : Moves w₂ w₂.makeBusy p id := .neutral p (List.nil_append _).symm (by simp) rfl rfl rfl rfl rfl
    exact ⟨hmoved.1.trans hbusy, hmoved.2⟩
  | diverged => exact hmoved

theorem processReply_called (w : World) (p : Ptr) (m : Message) : Called w p (processReply w p m) :=
  .intro (Moves.enter w p) (messageHandler_moves _ p m)
    (fun w₂ => (Moves.detach w₂ p).trans (Moves.unref _ p)) fun _ _ hok => hok.detach.finish

theorem processMatch_called (w : World) (p : Ptr) (m : Message) : Called w p (processMatch w p m) :=
  .intro (Moves.ref w p) (messageHandler_moves _ p m) (fun w₂ => Moves.unref w₂ p)
    fun _ _ hok => hok.finish

theorem processInstall_called (w : World) (p : Ptr) (m : Message) :
    Called w p (processInstall w p m) := by
  have hhandler := signalInstallHandler_moves (slotEnter w p) p m
  rw [processInstall]
  cases hm : m.type with
  | methodError error =>
    exact .intro (Moves.enter w p) hhandler (fun w₂ => (Moves.detach w₂ p).trans (Moves.unref _ p))
      fun _ _ hok => hok.detach.finish
  | _ =>
    exact .intro (Moves.enter w p) hhandler (fun w₂ => Moves.unref w₂ p) fun _ _ hok => hok.finish

/-- The accounts after a step. References leak only where a channel is closed. -/
structure Settles (leak : Ptr → ℕ) (w w' : World) : Prop where
  owned : ∃ leak', Owned leak' w' ∧ (¬ w.anyClosed → leak' = leak)
  chans : w'.chans = w.chans

theorem Owned.settles (h : Owned leak w' ∧ w'.chans = w.chans) : Settles leak w w' :=
  ⟨⟨leak, h.1, fun _ => rfl⟩, h.2⟩

theorem Owned.called (h : Owned leak w) (hp : p < w.nextPtr) (hconnected : (w.slots p).connected = true)
    (hc : Called w p o) (hw' : o.world? = some w') : Settles leak w w' := by
  cases o with
  | done w₂ =>
    obtain rfl := Option.some.inj hw'
    obtain ⟨f, hm, hf⟩ := hc
    exact Owned.settles ⟨h.same hm hp fun n hok => hf n hok hconnected, hm.chans⟩
  | raised w₂ e =>
    obtain rfl := Option.some.inj hw'
    obtain ⟨hm, hclosed⟩ := hc
    exact ⟨⟨_, h.moves hm hp ((h.ok p hp).ref hconnected), fun hno => absurd hclosed hno⟩, hm.chans⟩
  | diverged => simp [Outcome.world?] at hw'

/-! ### Steps -/

theorem Moves.give (w : World) (p : Ptr) : Moves w (returnHandle w p) p id := by
  have htouch : Moves w (w.touch .caller [p]) p id := Moves.touch w _ _ p
  have hset : ∀ w₂ : World, Moves w₂ (w₂.setHandle p { w₂.handles p with ref := .user }) p id :=
    fun w₂ => Moves.markHandle w₂ p rfl
  simp only [returnHandle]
  split
  · exact (htouch.trans (Moves.note rfl _ p)).trans (hset _)
  · exact htouch.trans (hset _)

theorem Owned.cancel (h : Owned leak w) (hp : p < w.nextPtr) :
    Owned leak (cfunCancelSlot w p) ∧ (cfunCancelSlot w p).chans = w.chans := by
  cases hs : (w.handles p).slot with
  | none =>
    rw [cfunCancelSlot_none hs]
    exact ⟨h.unmoved (Moves.note rfl w p), rfl⟩
  | some s =>
    obtain rfl := h.own p s hs
    have hm := Moves.unfloat w s
    have hunfloated := h.same hm hp fun _ hok => hok.unfloat
    obtain ⟨hreleased, hchans⟩ := hunfloated.release s
    rw [cfunCancelSlot_some hs]
    exact ⟨hreleased.unmoved (Moves.note rfl _ s), hchans.trans hm.chans⟩

theorem Owned.gc (h : Owned leak w) (p : Ptr) :
    Owned leak (dbusSlotGc w p) ∧ (dbusSlotGc w p).chans = w.chans := by
  obtain ⟨hreleased, hchans⟩ := h.release p
  have hset : ∀ w₂ : World, Moves w₂ (w₂.setHandle p { w₂.handles p with finalized := true }) p id :=
    fun w₂ => Moves.markHandle w₂ p rfl
  exact ⟨hreleased.unmoved (hset _), hchans⟩

/-- Channels are not part of the accounts. -/
theorem Owned.setChans (h : Owned leak w) (chans : ChanId → Chan) : Owned leak { w with chans := chans } :=
  ⟨h.own, h.ok, h.unborn, h.fresh⟩

end dispatch

def Step.closes : Step → Bool
  | .closeChan _ => true
  | _ => false

section steps
variable {leak : Ptr → ℕ} {w w' : World}

theorem Owned.step_settles (h : Owned leak w) {s : Step} (hs : step w s = some w')
    (hchan : ∀ c, s ≠ .dropChan c ∧ s ≠ .closeChan c ∧ s ≠ .gcChan c) : Settles leak w w' := by
  cases s with
  | callAsync c rv =>
    simp only [Async.step, Option.ite_none_right_eq_some] at hs
    exact Owned.settles (h.start c .Call rv hs.2)
  | matchAsync c rv =>
    simp only [Async.step, Option.ite_none_right_eq_some] at hs
    exact Owned.settles (h.start c .Match rv hs.2)
  | returned p =>
    simp only [Async.step, Option.ite_none_right_eq_some, Option.some.injEq] at hs
    obtain ⟨_, rfl⟩ := hs
    exact Owned.settles ⟨h.unmoved (Moves.give w p), (Moves.give w p).chans⟩
  | reply p m =>
    simp only [Async.step, Option.ite_none_right_eq_some] at hs
    obtain ⟨⟨hc, _, _⟩, hs⟩ := hs
    obtain ⟨_, hconnected, _, hp⟩ := World.callable_spec hc
    exact h.called hp hconnected (processReply_called w p m) hs
  | matched p m =>
    simp only [Async.step, Option.ite_none_right_eq_some] at hs
    obtain ⟨hc, hs⟩ := hs
    obtain ⟨_, hconnected, _, hp⟩ := World.callable_spec hc
    exact h.called hp hconnected (processMatch_called w p m) hs
  | installed p m =>
    simp only [Async.step, Option.ite_none_right_eq_some] at hs
    obtain ⟨⟨hc, _, _⟩, hs⟩ := hs
    obtain ⟨_, hconnected, _, hp⟩ := World.callable_spec hc
    exact h.called hp hconnected (processInstall_called w p m) hs
  | cancel p =>
    simp only [Async.step, Option.ite_none_right_eq_some, Option.some.injEq] at hs
    obtain ⟨⟨hp, _⟩, rfl⟩ := hs
    exact Owned.settles (h.cancel hp)
  | dropHandle p =>
    simp only [Async.step, Option.ite_none_right_eq_some, Option.some.injEq] at hs
    obtain ⟨_, rfl⟩ := hs
    have hm : Moves w (w.setHandle p { w.handles p with ref := .dropped }) p id :=
      Moves.markHandle w p rfl
    exact Owned.settles ⟨h.unmoved hm, rfl⟩
  | dropChan c => exact absurd rfl (hchan c).1
  | closeChan c => exact absurd rfl (hchan c).2.1
  | gcHandle p =>
    simp only [Async.step, Option.ite_none_right_eq_some, Option.some.injEq] at hs
    obtain ⟨_, rfl⟩ := hs
    exact Owned.settles (h.gc p)
  | gcChan c => exact absurd rfl (hchan c).2.2
  | hup =>
    simp only [Async.step, Option.ite_none_right_eq_some] at hs
    exact Owned.settles (h.callback .hup w' hs.2)
  | err =>
    simp only [Async.step, Option.ite_none_right_eq_some] at hs
    exact Owned.settles (h.callback .err w' hs.2)
  | closeBus => exact Owned.settles (h.close w' hs)
  | busDrop p =>
    simp only [Async.step, Option.ite_none_right_eq_some, Option.some.injEq] at hs
    obtain ⟨⟨_, _, hp⟩, rfl⟩ := hs
    have hm := Moves.detach w p
    exact Owned.settles ⟨h.same hm hp fun _ hok => hok.detach, hm.chans⟩

theorem Owned.step (h : Owned leak w) {s : Step} (hs : Async.step w s = some w') :
    ∃ leak', Owned leak' w' ∧ (¬ w.anyClosed → leak' = leak) ∧
      (s.closes = false → w'.anyClosed → w.anyClosed) := by
  by_cases hchan : ∀ c, s ≠ .dropChan c ∧ s ≠ .closeChan c ∧ s ≠ .gcChan c
  · obtain ⟨⟨leak', howned, hleak⟩, hchans⟩ := h.step_settles hs hchan
    exact ⟨leak', howned, hleak, fun _ hclosed => by rwa [World.anyClosed, ← hchans]⟩
  -- what is left changes one channel
  have hset : ∃ chans, w' = { w with chans := chans } ∧
      (s.closes = false → ∀ c, (chans c).closed = (w.chans c).closed) := by
    have hupdate : ∀ (c : ChanId) (ch : Chan), ch.closed = (w.chans c).closed →
        ∀ x, (Function.update w.chans c ch x).closed = (w.chans x).closed := by
      intro c ch hch x
      by_cases hx : x = c
      · subst hx; rwa [Function.update_self]
      · rw [Function.update_of_ne hx]
    cases s with
    | dropChan c =>
      simp only [Async.step, Option.some.injEq] at hs
      exact ⟨_, hs.symm, fun _ => hupdate c _ rfl⟩
    | closeChan c =>
      simp only [Async.step, Option.ite_none_right_eq_some, Option.some.injEq] at hs
      exact ⟨_, hs.2.symm, fun hno => absurd hno (by simp [Step.closes])⟩
    | gcChan c =>
      simp only [Async.step, Option.ite_none_right_eq_some, Option.some.injEq] at hs
      exact ⟨_, hs.2.symm, fun _ => hupdate c _ rfl⟩
    | _ => exact absurd (fun c => by simp) hchan
  obtain ⟨chans, rfl, hsame⟩ := hset
  refine ⟨leak, h.setChans chans, fun _ => rfl, fun hno hclosed => ?_⟩
  obtain ⟨c, hc⟩ := hclosed
  exact ⟨c, hsame hno c ▸ hc⟩

/-- Along every run the accounts add up. -/
theorem owned_run {steps : List Step} (hrun : exec Async.step initial steps = some w) :
    ∃ leak, Owned leak w := by
  refine Meets.invariant (I := fun w => ∃ leak, Owned leak w) ?_ ⟨_, Owned.init⟩
    (Meets.of_forall (p := fun _ => True) fun _ _ => trivial) hrun
  rintro w s w' ⟨leak, h⟩ _ hs
  obtain ⟨leak', h', _⟩ := h.step hs
  exact ⟨leak', h'⟩

/-- As long as no channel is closed, nothing leaks. -/
theorem owned_run_open {steps : List Step} (hrun : exec Async.step initial steps = some w)
    (hopen : ∀ s ∈ steps, s.closes = false) : Owned (fun _ => 0) w := by
  have hboth := Meets.invariant (I := fun w => Owned (fun _ => 0) w ∧ ¬ w.anyClosed)
    ?_ ⟨Owned.init, by simp [World.anyClosed, initial]⟩
    (Meets.of_forall hopen) hrun
  · exact hboth.1
  · rintro w s w' ⟨h, hno⟩ hs hstep
    obtain ⟨leak', h', hleak, hclosed⟩ := h.step hstep
    exact ⟨hleak hno ▸ h', fun hany => hno (hclosed hs hany)⟩

end steps

/-! ### Freed once -/

/-- The handle or the bus refers to the slot of the record. -/
def World.referred (w : World) (p : Ptr) : Prop :=
  (w.handles p).slot = some p ∨ ((w.slots p).floating = true ∧ (w.slots p).connected = true)

instance (w : World) (p : Ptr) : Decidable (w.referred p) := by
  unfold World.referred; infer_instance

theorem Account.Ok.frees_eq {a : Account} (h : a.Ok 0) :
    a.frees = if a.held = true ∨ (a.floating = true ∧ a.connected = true) then 0 else 1 := by
  have hrefs := h.refs
  rw [h.frees]
  split
  · next href =>
    have hfreed : a.freed = false := by
      rw [← Bool.not_eq_true, h.freed]
      rcases href with hheld | ⟨hfloating, hconnected⟩
      · rw [hheld] at hrefs
        simp only [Bool.toNat_true] at hrefs
        omega
      · rw [hfloating, hconnected] at hrefs
        simp only [Bool.and_self, Bool.toNat_true] at hrefs
        omega
    rw [hfreed]
    rfl
  · next hno =>
    have hfreed : a.freed = true := by
      rw [h.freed, hrefs]
      simp only [not_or, not_and, Bool.not_eq_true] at hno
      cases hf : a.floating with
      | false => simp [hno.1]
      | true => simp [hno.1, hno.2 hf]
    rw [hfreed]
    rfl

/-- On every run a record is freed at most once, and as long as channels stay open exactly once: as
    soon as neither its handle nor the bus refers to the slot, which is at once if sd-bus did not
    accept the call. A handle that has let go is not released again. -/
theorem freed_exactly_once {steps : List Step} {w : World}
    (hrun : exec step initial steps = some w) :
    (∀ p, w.frees p ≤ 1) ∧
    ((∀ s ∈ steps, s.closes = false) →
      ∀ p, p < w.nextPtr → w.frees p = if w.referred p then 0 else 1) ∧
    (∀ c rv w', rv < 0 → step w (.callAsync c rv) = some w' ∨ step w (.matchAsync c rv) = some w' →
      w'.nextPtr = w.nextPtr + 1 ∧ w'.freed w.nextPtr = true ∧ w'.frees w.nextPtr = 1) ∧
    ∀ p w', (w.handles p).slot = none → step w (.cancel p) = some w' → w' = w.note (.cancelled p) := by
  obtain ⟨leak, howned⟩ := owned_run hrun
  refine ⟨fun p => ?_, fun hopen p hp => ?_, fun c rv w' hrv hs => ?_, fun p w' hslot hs => ?_⟩
  · by_cases hp : p < w.nextPtr
    · have hfrees : w.frees p = (w.freed p).toNat := (howned.ok p hp).frees
      rw [hfrees]
      exact Bool.toNat_le _
    · have hfrees : w.frees p = 0 := congrArg Account.frees (howned.unborn p (Nat.le_of_not_lt hp))
      omega
  · have hfrees := ((owned_run_open hrun hopen).ok p hp).frees_eq
    simp only [World.account, decide_eq_true_eq] at hfrees
    rw [hfrees]
    rfl
  · have hstart : ∃ kind, (startAsync w c kind rv).world? = some w' := by
      rcases hs with hs | hs
      · simp only [Async.step, Option.ite_none_right_eq_some] at hs
        exact ⟨_, hs.2⟩
      · simp only [Async.step, Option.ite_none_right_eq_some] at hs
        exact ⟨_, hs.2⟩
    obtain ⟨kind, hstart⟩ := hstart
    have hadds := startAsync_refused howned c kind hrv hstart
    exact ⟨hadds.next, congrArg Account.freed hadds.self, congrArg Account.frees hadds.self⟩
  · simp only [Async.step, Option.ite_none_right_eq_some, Option.some.injEq] at hs
    obtain ⟨_, rfl⟩ := hs
    exact cfunCancelSlot_none hslot

/-- A call that is cancelled twice, and one that sd-bus does not accept. -/
def cancelTwice : List Step :=
  [.callAsync 0 1, .returned 0, .callAsync 1 (-1), .cancel 0, .cancel 0]

theorem freed_exactly_once_cancelled : ∃ w, exec step initial cancelTwice = some w ∧
    w.frees 0 = 1 ∧ w.frees 1 = 1 := by
  have hrun : (exec step initial cancelTwice).map
      (fun w => (w.nextPtr, decide (w.referred 0), decide (w.referred 1))) = some (2, false, false) := by
    decide +kernel
  obtain ⟨w, hw, hview⟩ := Option.map_eq_some_iff.mp hrun
  simp only [Prod.mk.injEq, decide_eq_false_iff_not] at hview
  obtain ⟨hnext, h0, h1⟩ := hview
  obtain ⟨_, hexact, _⟩ := freed_exactly_once hw
  have hopen := hexact (by decide)
  exact ⟨w, hw, by rw [hopen 0 (by omega), if_neg h0], by rw [hopen 1 (by omega), if_neg h1]⟩

end JanetSdbus.Async
