import JanetSdbus.Async.Conn
import JanetSdbus.Schemes.Run
import Mathlib.Data.List.Perm.Subperm

/-! The pending queue refines a sequence.

    `queuePending` and `dequeuePending` are the two list operations of `Schemes.LinkedList` applied
    to the records in the heap. `Inv` ties the heap to the abstract view read off the log: the
    records queued and neither answered nor destroyed since, most recent first. Every step keeps
    `Inv` as long as no record is unlinked a second time at a moment when its old neighbours have
    changed (`StepOk`), and a step that does that leaves no list with the right members. -/

namespace JanetSdbus.Async
open Schemes.LinkedList Schemes.Run

/-! ### The two operations on links -/

namespace World

/-- Replace the links and log some accesses. -/
def withLinks (w : World) (L : Links Ptr) (es : List Event) : World :=
  { w with
    conn := { w.conn with queue := L.head }
    heap := fun x => { w.heap x with next := L.next x, prev := L.prev x }
    log := es ++ w.log }

@[simp] theorem withLinks_links (w : World) (L : Links Ptr) (es : List Event) :
    (w.withLinks L es).links = L := rfl

@[simp] theorem setSlot_self (w : World) (p : Ptr) (x : SdBusSlot) : (w.setSlot p x).slots p = x :=
  Function.update_self _ _ _

@[simp] theorem setSlot_ne (w : World) {p q : Ptr} (x : SdBusSlot) (hq : q ≠ p) :
    (w.setSlot p x).slots q = w.slots q := Function.update_of_ne hq _ _

@[simp] theorem setHandle_self (w : World) (p : Ptr) (x : Handle) :
    (w.setHandle p x).handles p = x := Function.update_self _ _ _

@[simp] theorem setHandle_ne (w : World) {p q : Ptr} (x : Handle) (hq : q ≠ p) :
    (w.setHandle p x).handles q = w.handles q := Function.update_of_ne hq _ _

/-- The accesses to freed records among `ps`. -/
def freedOf (w : World) (site : Site) (ps : List Ptr) : List Event :=
  (ps.filter w.freed).map (.freedRecord site)

/-- The records `dequeue_pending` reads or writes. -/
def dequeueSet (w : World) (p : Ptr) : List Ptr :=
  p :: ((w.heap p).prev.toList ++ (w.heap p).next.toList)

end World

theorem queuePending_eq (w : World) (p : Ptr) (hp : w.conn.queue ≠ some p) :
    queuePending w p = w.withLinks (w.links.push p) (w.freedOf .queue w.conn.queue.toList) := by
  unfold queuePending
  cases hq : w.conn.queue with
  | none =>
    simp only [World.setPrev, World.setNext, World.setQueue, World.withLinks, World.freedOf, hq]
    congr 1
    funext x
    by_cases hx : x = p
    · subst hx; simp [Links.push, World.links, hq]
    · simp [Links.push, World.links, hq, hx]
  | some h =>
    have hph : h ≠ p := by rintro rfl; exact hp hq
    simp only [World.setPrev, World.setNext, World.setQueue, World.withLinks, World.freedOf,
      World.touch, hq]
    congr 1
    funext x
    by_cases hx : x = p
    · subst hx; simp [Links.push, World.links, hq, hph.symm]
    · by_cases hxh : x = h
      · subst hxh; simp [Links.push, World.links, hq, hx]
      · simp [Links.push, World.links, hq, hx, hxh]

theorem dequeuePending_eq (w : World) (p : Ptr) :
    dequeuePending w p = w.withLinks (w.links.unlink p)
      (if w.conn.queue = none then [] else w.freedOf .dequeue (w.dequeueSet p)) := by
  unfold dequeuePending
  by_cases hq : w.conn.queue = none
  · simp [hq, World.withLinks, Links.unlink, World.links]
    rw [← hq]
  · have hh : w.links.head ≠ none := hq
    rw [if_neg hq, if_neg hq]
    cases hv : (w.heap p).prev with
    | none =>
      have hv' : w.links.prev p = none := hv
      cases hn : (w.heap p).next with
      | none =>
        have hn' : w.links.next p = none := hn
        simp only [World.withLinks, World.touch, World.setQueue, hv, hn,
          unlink_head hh, unlink_next_none hh hv', unlink_prev_none hh hn', hv', if_true, hn',
          World.freedOf, World.dequeueSet]
        rfl
      | some b =>
        have hn' : w.links.next p = some b := hn
        simp only [World.withLinks, World.touch, World.setQueue, World.setPrev, hv, hn,
          unlink_head hh, unlink_next_none hh hv', unlink_prev_some hh hn', hv', if_true, hn',
          World.freedOf, World.dequeueSet]
        congr 1
        funext x
        by_cases hx : x = b
        · subst hx; simp [World.links]
        · simp [World.links, hx]
    | some a =>
      have hv' : w.links.prev p = some a := hv
      have hpa : (Function.update w.heap a { w.heap a with next := (w.heap p).next } p).next
          = (w.heap p).next := by
        by_cases h : p = a
        · subst h; simp
        · simp [h]
      have hpv : (Function.update w.heap a { w.heap a with next := (w.heap p).next } p).prev
          = (w.heap p).prev := by
        by_cases h : p = a
        · subst h; simp
        · simp [h]
      cases hn : (w.heap p).next with
      | none =>
        have hn' : w.links.next p = none := hn
        rw [hn] at hpa
        simp only [World.withLinks, World.touch, World.setNext, hv, hn, hpa,
          unlink_head hh, unlink_next_some hh hv', unlink_prev_none hh hn', hv', hn',
          World.freedOf, World.dequeueSet]
        congr 1
        funext x
        by_cases hx : x = a
        · subst hx; simp [World.links]
        · simp [World.links, hx]
      | some b =>
        have hn' : w.links.next p = some b := hn
        rw [hn] at hpa hpv
        rw [hv] at hpv
        simp only [World.withLinks, World.touch, World.setNext, World.setPrev, hv, hn, hpa, hpv,
          unlink_head hh, unlink_next_some hh hv', unlink_prev_some hh hn', hv', hn',
          World.freedOf, World.dequeueSet]
        congr 1
        funext x
        by_cases hx : x = a
        · subst hx
          by_cases hxb : x = b
          · subst hxb; simp [World.links]
          · simp [World.links, hxb]
        · by_cases hxb : x = b
          · subst hxb; simp [World.links, hx]
          · simp [World.links, hx, hxb]

/-! ### The abstract view -/

/-- The records still outstanding after a history (latest event first): queued, and neither
    answered nor destroyed nor swept since; most recently queued first. -/
def outstanding : List Event → List Ptr
  | [] => []
  | .queued p :: l => p :: outstanding l
  | .answered p :: l => (outstanding l).erase p
  | .destroyed p :: l => (outstanding l).erase p
  | .swept :: _ => []
  | _ :: l => outstanding l

theorem outstanding_freedOf (w : World) (site : Site) (l : List Event) :
    ∀ ps : List Ptr, outstanding (w.freedOf site ps ++ l) = outstanding l
  | [] => rfl
  | p :: ps => by
    cases h : w.freed p <;> simp [World.freedOf, h, outstanding] <;>
      exact outstanding_freedOf w site l ps

/-- `dequeue_pending` has never touched freed memory. -/
def NoDequeueFault (l : List Event) : Prop := ∀ p, Event.freedRecord .dequeue p ∉ l

/-- What is promised of the queue: a well-formed list of exactly the outstanding records, and no
    access of `dequeue_pending` to a freed one. -/
def QueueOk (w : World) : Prop :=
  (∃ q, Repr w.links q ∧ ∀ p, p ∈ q ↔ p ∈ outstanding w.log) ∧ NoDequeueFault w.log

/-- The reference the bus holds on a floating slot that is connected. -/
def World.busRef (w : World) (p : Ptr) : ℕ :=
  ((w.slots p).floating && (w.slots p).connected).toNat

/-- The reference the Janet handle holds. -/
def World.handleRef (w : World) (p : Ptr) : ℕ := if (w.handles p).slot = some p then 1 else 0

/-- The connection invariant. `refs` is an inequality because a callback left by a panic leaves
    the reference that sd-bus took for it behind. -/
structure Inv (w : World) : Prop where
  repr : Repr w.links (outstanding w.log)
  live : ∀ p ∈ outstanding w.log, p < w.nextPtr ∧ w.freed p = false
  own : ∀ p s, (w.handles p).slot = some s → s = p
  refs : ∀ p, w.handleRef p + w.busRef p ≤ (w.slots p).refs
  alive : ∀ p, (w.slots p).connected = true → 0 < (w.slots p).refs
  fresh : ∀ p, w.nextPtr ≤ p → (w.slots p).refs = 0
  gone : ∀ p, p < w.nextPtr → (w.freed p = true ↔ (w.slots p).refs = 0)
  noFault : NoDequeueFault w.log

/-- The second unlink of a record that has left the queue is harmless: the queue is empty, or the
    record's old neighbours are still allocated and, where they are queued, still adjacent. -/
def UnlinkOk (w : World) (p : Ptr) : Prop :=
  p ∈ w.queued ∨ w.conn.queue = none ∨
    ((∀ x ∈ w.dequeueSet p, w.freed x = false) ∧ Harmless w.links w.queued p)

theorem Inv.queued_eq {w : World} (h : Inv w) : w.queued = outstanding w.log := by
  have hsub : outstanding w.log ⊆ List.range w.nextPtr :=
    fun p hp => List.mem_range.mpr (h.live p hp).1
  have hlen : (outstanding w.log).length ≤ w.nextPtr := by
    have := (List.subperm_of_subset h.repr.nodup hsub).length_le
    simpa using this
  exact h.repr.walk_eq hlen

theorem Inv.queued_nil {w : World} (h : Inv w) (hq : w.conn.queue = none) : w.queued = [] := by
  rw [h.queued_eq]
  by_contra hne
  exact h.repr.ne_nil_iff.mp hne hq

theorem Inv.queueOk {w : World} (h : Inv w) : QueueOk w :=
  ⟨⟨outstanding w.log, h.repr, fun _ => Iff.rfl⟩, h.noFault⟩

theorem Inv.init : Inv initial where
  repr := Repr.nil_iff.mpr rfl
  live := by simp [initial, outstanding]
  own := by simp [initial]
  refs := by simp [initial, World.handleRef, World.busRef]
  alive := by simp [initial]
  fresh := by simp [initial]
  gone := by simp [initial]
  noFault := by simp [initial, NoDequeueFault]

/-! ### Updates that leave the list alone -/

/-- Events that say nothing about the queue. -/
def Event.plain : Event → Bool
  | .cancelled _ | .wrote .. | .finalizedHandle _ | .finalizedChan _ => true
  | .freedRecord site _ => site ≠ .dequeue
  | _ => false

def World.logged (w : World) (es : List Event) : World := { w with log := es ++ w.log }

theorem outstanding_plain : ∀ {es l : List Event}, (∀ e ∈ es, e.plain = true) →
    outstanding (es ++ l) = outstanding l
  | [], _, _ => rfl
  | e :: es, l, h => by
    have hrec : outstanding (es ++ l) = outstanding l :=
      outstanding_plain fun e he => h e (List.mem_cons_of_mem _ he)
    have he := h e (by simp)
    cases e <;> simp_all [outstanding, Event.plain]

theorem Inv.logged {w : World} (h : Inv w) {es : List Event} (hes : ∀ e ∈ es, e.plain = true) :
    Inv (w.logged es) where
  repr := by rw [World.logged, outstanding_plain hes]; exact h.repr
  live := by rw [World.logged, outstanding_plain hes]; exact h.live
  own := h.own
  refs := h.refs
  alive := h.alive
  fresh := h.fresh
  gone := h.gone
  noFault := by
    intro p hp
    rcases List.mem_append.mp hp with hp | hp
    · have := hes _ hp; simp [Event.plain] at this
    · exact h.noFault p hp

theorem mem_freedOf {w : World} {site : Site} {ps : List Ptr} {e : Event} :
    e ∈ w.freedOf site ps ↔ ∃ p ∈ ps, w.freed p = true ∧ e = .freedRecord site p := by
  simp only [World.freedOf, List.mem_map, List.mem_filter]
  constructor
  · rintro ⟨p, ⟨hp, hf⟩, rfl⟩; exact ⟨p, hp, hf, rfl⟩
  · rintro ⟨p, hp, hf, rfl⟩; exact ⟨p, ⟨hp, hf⟩, rfl⟩

/-- Accesses outside `dequeue_pending` are plain events. -/
theorem touch_eq {w : World} {site : Site} (hs : site ≠ .dequeue) (ps : List Ptr) :
    ∃ es, w.touch site ps = w.logged es ∧ ∀ e ∈ es, e.plain = true := by
  refine ⟨w.freedOf site ps, rfl, ?_⟩
  intro e he
  obtain ⟨p, _, _, rfl⟩ := mem_freedOf.mp he
  simpa [Event.plain] using hs

/-- Rewrite one sd-bus slot, keeping its references accounted for. -/
theorem Inv.setSlot {w : World} (h : Inv w) {p : Ptr} {x : SdBusSlot}
    (hr : w.handleRef p + (x.floating && x.connected).toNat ≤ x.refs)
    (hz : x.refs = 0 ↔ (w.slots p).refs = 0) (ha : x.connected = true → 0 < x.refs) :
    Inv (w.setSlot p x) where
  repr := h.repr
  live := h.live
  own := h.own
  refs := by
    intro q
    have hh : (w.setSlot p x).handleRef q = w.handleRef q := rfl
    by_cases hq : q = p
    · subst hq
      rw [hh]
      simpa only [World.setSlot, World.busRef, Function.update_self] using hr
    · have hs : (w.setSlot p x).slots q = w.slots q := Function.update_of_ne hq _ _
      have hb : (w.setSlot p x).busRef q = w.busRef q := by rw [World.busRef, hs]; rfl
      rw [hh, hb, hs]; exact h.refs q
  alive := by
    intro q
    by_cases hq : q = p
    · subst hq; simpa [World.setSlot] using ha
    · simpa [World.setSlot, hq] using h.alive q
  fresh := by
    intro q hge
    by_cases hq : q = p
    · subst hq; simpa [World.setSlot] using hz.mpr (h.fresh q hge)
    · simpa [World.setSlot, hq] using h.fresh q hge
  gone := by
    intro q hlt
    by_cases hq : q = p
    · subst hq
      have := h.gone q hlt
      simp only [World.setSlot, Function.update_self]
      rw [hz]; exact this
    · simpa [World.setSlot, hq] using h.gone q hlt
  noFault := h.noFault

/-- Rewrite one handle: it may let go of its slot, not take one. -/
theorem Inv.setHandle {w : World} (h : Inv w) {p : Ptr} {x : Handle}
    (hx : x.slot = none ∨ x.slot = (w.handles p).slot) : Inv (w.setHandle p x) where
  repr := h.repr
  live := h.live
  own := by
    intro q s
    by_cases hq : q = p
    · subst hq
      simp only [World.setHandle, Function.update_self]
      rcases hx with hx | hx
      · simp [hx]
      · rw [hx]; exact h.own q s
    · simpa [World.setHandle, hq] using h.own q s
  refs := by
    intro q
    have hq := h.refs q
    by_cases hqp : q = p
    · subst hqp
      have hle : (w.setHandle q x).handleRef q ≤ w.handleRef q := by
        simp only [World.handleRef, World.setHandle, Function.update_self]
        rcases hx with hx | hx <;> simp [hx]
      have hb : (w.setHandle q x).busRef q = w.busRef q := rfl
      have hs : ((w.setHandle q x).slots q).refs = (w.slots q).refs := rfl
      omega
    · simpa [World.setHandle, World.handleRef, World.busRef, hqp] using hq
  alive := h.alive
  fresh := h.fresh
  gone := h.gone
  noFault := h.noFault

/-- Channels are no part of the invariant. -/
theorem Inv.setChans {w : World} (h : Inv w) (f : ChanId → Chan) : Inv { w with chans := f } :=
  ⟨h.repr, h.live, h.own, h.refs, h.alive, h.fresh, h.gone, h.noFault⟩

/-- Neither are the streams. -/
theorem Inv.setConn {w : World} (h : Inv w) {c : Conn} (hq : c.queue = w.conn.queue) :
    Inv { w with conn := c } where
  repr := h.repr.congr hq (fun _ _ => rfl) (fun _ _ => rfl)
  live := h.live
  own := h.own
  refs := h.refs
  alive := h.alive
  fresh := h.fresh
  gone := h.gone
  noFault := h.noFault

/-! ### Unlinking -/

/-- What one call of `dequeue_pending` adds to the log. -/
def World.dequeueLog (w : World) (p : Ptr) : List Event :=
  if w.conn.queue = none then [] else w.freedOf .dequeue (w.dequeueSet p)

theorem dequeuePending_eq' (w : World) (p : Ptr) :
    dequeuePending w p = w.withLinks (w.links.unlink p) (w.dequeueLog p) := dequeuePending_eq w p

theorem outstanding_dequeueLog (w : World) (p : Ptr) (l : List Event) :
    outstanding (w.dequeueLog p ++ l) = outstanding l := by
  rw [World.dequeueLog]
  split
  · rfl
  · exact outstanding_freedOf w .dequeue l _

/-- The neighbours a queued record names are queued themselves. -/
theorem Inv.dequeueSet_subset {w : World} (h : Inv w) {p : Ptr} (hp : p ∈ outstanding w.log) :
    ∀ x ∈ w.dequeueSet p, x ∈ outstanding w.log := by
  obtain ⟨l₁, l₂, hq⟩ := List.append_of_mem hp
  have hr : Repr w.links (l₁ ++ p :: l₂) := hq ▸ h.repr
  obtain ⟨hn, _, hv⟩ := hr.fields_at
  intro x hx
  rw [hq]
  rcases List.mem_cons.mp hx with rfl | hx
  · simp
  rcases List.mem_append.mp hx with hx | hx
  · have : x ∈ l₁ := hv x (by simpa [World.links] using hx)
    simp [this]
  · have hn' : (w.heap p).next = l₂.head? := hn
    rw [hn'] at hx
    have : x ∈ l₂ := by
      cases l₂ with
      | nil => simp at hx
      | cons b l₂ => simp at hx; simp [hx]
    simp [this]

/-- Unlinking `p` takes it out of the sequence, if it is still there, and touches no freed memory. -/
structure UnlinkSafe (w : World) (p : Ptr) : Prop where
  seq : Repr (w.links.unlink p) ((outstanding w.log).erase p)
  fault : ∀ x, Event.freedRecord .dequeue x ∉ w.dequeueLog p

theorem UnlinkSafe.congr {w w' : World} {p : Ptr} (h : UnlinkSafe w p) (hl : w'.links = w.links)
    (hf : w'.freed = w.freed) (ho : outstanding w'.log = outstanding w.log) : UnlinkSafe w' p where
  seq := by rw [hl, ho]; exact h.seq
  fault := by
    have hq : w'.conn.queue = w.conn.queue := congrArg Links.head hl
    have hn : (w'.heap p).next = (w.heap p).next := congrFun (congrArg Links.next hl) p
    have hv : (w'.heap p).prev = (w.heap p).prev := congrFun (congrArg Links.prev hl) p
    have hd : w'.dequeueLog p = w.dequeueLog p := by
      simp only [World.dequeueLog, World.dequeueSet, World.freedOf, hq, hn, hv, hf]
    rw [hd]; exact h.fault

theorem Inv.unlink {w : World} (h : Inv w) {p : Ptr} (hok : UnlinkOk w p) : UnlinkSafe w p := by
  have noFault : (w.conn.queue ≠ none → ∀ x ∈ w.dequeueSet p, w.freed x = false) →
      ∀ x, Event.freedRecord .dequeue x ∉ w.dequeueLog p := by
    intro hall x hx
    rw [World.dequeueLog] at hx
    split at hx
    · simp at hx
    · next hq =>
      obtain ⟨y, hy, hf, _⟩ := mem_freedOf.mp hx
      rw [hall hq y hy] at hf; simp at hf
  by_cases hp : p ∈ outstanding w.log
  · refine ⟨h.repr.unlink hp, noFault fun _ x hx => ?_⟩
    exact (h.live x (h.dequeueSet_subset hp x hx)).2
  · suffices hs : Repr (w.links.unlink p) (outstanding w.log) ∧
        ∀ x, Event.freedRecord .dequeue x ∉ w.dequeueLog p from
      ⟨by rw [List.erase_of_not_mem hp]; exact hs.1, hs.2⟩
    rcases hok with hq | hq | ⟨hlive, hharm⟩
    · exact absurd (h.queued_eq ▸ hq) hp
    · have hnil : outstanding w.log = [] := by
        by_contra hne; exact h.repr.ne_nil_iff.mp hne hq
      exact ⟨h.repr.unlink_stale (Or.inl hnil), noFault fun hne => absurd hq hne⟩
    · rw [h.queued_eq] at hharm
      exact ⟨h.repr.unlink_stale (Or.inr hharm), noFault fun _ => hlive⟩

/-- Whatever a forbidden unlink leaves, it is not a list of the outstanding records, or freed
    memory was touched. -/
theorem Inv.unlink_breaks {w w' : World} (h : Inv w) {p : Ptr} (hno : ¬ UnlinkOk w p)
    (hl : w'.links = w.links.unlink p) (hlog : ∀ e ∈ w.dequeueLog p, e ∈ w'.log)
    (ho : outstanding w'.log = outstanding w.log) : ¬ QueueOk w' := by
  rintro ⟨⟨q', hr, hm⟩, hf⟩
  simp only [UnlinkOk, not_or] at hno
  obtain ⟨_, hq, hno⟩ := hno
  apply hno
  constructor
  · intro x hx
    by_contra hfx
    have hmem : Event.freedRecord .dequeue x ∈ w.dequeueLog p := by
      rw [World.dequeueLog, if_neg hq]
      exact mem_freedOf.mpr ⟨x, hx, by simpa using hfx, rfl⟩
    exact hf x (hlog _ hmem)
  · rw [h.queued_eq]
    have hex : ∃ q', Repr (w.links.unlink p) q' ∧ ∀ x, x ∈ q' ↔ x ∈ outstanding w.log :=
      ⟨q', hl ▸ hr, fun x => by rw [← ho]; exact hm x⟩
    rcases (unlink_stale_iff h.repr).mp hex with hnil | hharm
    · have hr₀ := h.repr
      rw [hnil] at hr₀
      exact absurd (Repr.nil_iff.mp hr₀) hq
    · exact hharm

/-- A state in which the queue is lost for good as far as record `p` goes: unlinking `p` once more
    would change nothing. -/
structure Broken (w : World) (p : Ptr) : Prop where
  out : p ∉ outstanding w.log
  again : w.links.unlink p = w.links
  bad : ¬ QueueOk w

theorem Broken.transfer {w w' : World} {p : Ptr} (h : Broken w p) (hl : w'.links = w.links)
    (hlog : ∀ e ∈ w.log, e ∈ w'.log) (ho : outstanding w'.log = outstanding w.log) :
    Broken w' p where
  out := by rw [ho]; exact h.out
  again := by rw [hl]; exact h.again
  bad := by
    rintro ⟨⟨q, hr, hm⟩, hf⟩
    exact h.bad ⟨⟨q, hl ▸ hr, fun x => by rw [← ho]; exact hm x⟩, fun x hx => hf x (hlog _ hx)⟩

/-- `dequeue_pending` and the note that the record is done with. -/
theorem Inv.dequeue_broken {w : World} (h : Inv w) {p : Ptr} (hno : ¬ UnlinkOk w p) {e : Event}
    (he : outstanding (e :: (w.dequeueLog p ++ w.log)) = (outstanding w.log).erase p)
    {w' : World} (hl : w'.links = w.links.unlink p)
    (hlog : w'.log = e :: (w.dequeueLog p ++ w.log)) : Broken w' p := by
  have hp : p ∉ outstanding w.log := fun hp => hno (Or.inl (h.queued_eq ▸ hp))
  have ho : outstanding w'.log = outstanding w.log := by
    rw [hlog, he, List.erase_of_not_mem hp]
  exact {
    out := by rw [ho]; exact hp
    again := by rw [hl]; exact unlink_unlink _ _
    bad := h.unlink_breaks hno hl (fun e he => by rw [hlog]; simp [he]) ho }

/-! ### The destroy callback and `sd_bus_slot_unref` -/

theorem destroy_links (w : World) (p : Ptr) :
    (destroyCallCallback w p).links = w.links.unlink p := by
  have hl : ({ w with heap := Function.update w.heap p { w.heap p with slot := none } } : World).links
      = w.links := by
    simp only [World.links]
    congr 1 <;> funext x <;> by_cases hx : x = p
    · subst hx; simp
    · simp [hx]
    · subst hx; simp
    · simp [hx]
  rw [destroyCallCallback]
  simp only [dequeuePending_eq', hl]
  rfl

theorem destroy_log (w : World) (p : Ptr) :
    (destroyCallCallback w p).log = .destroyed p :: (w.dequeueLog p ++ w.log) := by
  have hd : ({ w with heap := Function.update w.heap p { w.heap p with slot := none } } :
      World).dequeueLog p = w.dequeueLog p := by
    simp [World.dequeueLog, World.dequeueSet, World.freedOf]
  rw [destroyCallCallback]
  simp only [dequeuePending_eq', hd]
  rfl

/-- Apart from the links, the log and `freed`, the destroy callback changes the record's `slot`. -/
theorem destroy_frame (w : World) (p : Ptr) :
    (destroyCallCallback w p).slots = w.slots ∧ (destroyCallCallback w p).handles = w.handles ∧
      (destroyCallCallback w p).nextPtr = w.nextPtr ∧
      (destroyCallCallback w p).freed = Function.update w.freed p true := by
  simp only [destroyCallCallback, dequeuePending_eq']
  exact ⟨rfl, rfl, rfl, rfl⟩

/-- The last `sd_bus_slot_unref` of a slot. -/
def slotFree (w : World) (p : Ptr) : World :=
  destroyCallCallback
    (w.setSlot p { w.slots p with refs := 0, connected := false, awaiting := false }) p

theorem slotUnref_last {w : World} {p : Ptr} (h : (w.slots p).refs ≤ 1) :
    slotUnref w p = slotFree w p := by
  have h0 : (w.slots p).refs - 1 = 0 := by omega
  simp [slotUnref, h0, slotFree, slotDisconnect, World.setSlot]

theorem slotUnref_more {w : World} {p : Ptr} (h : 1 < (w.slots p).refs) :
    slotUnref w p = w.setSlot p { w.slots p with refs := (w.slots p).refs - 1 } := by
  have h0 : (w.slots p).refs - 1 ≠ 0 := by omega
  simp [slotUnref, h0]

theorem slotFree_links (w : World) (p : Ptr) : (slotFree w p).links = w.links.unlink p :=
  destroy_links _ p

theorem slotFree_log (w : World) (p : Ptr) :
    (slotFree w p).log = .destroyed p :: (w.dequeueLog p ++ w.log) := destroy_log _ p

theorem outstanding_slotFree (w : World) (p : Ptr) :
    outstanding (slotFree w p).log = (outstanding w.log).erase p := by
  rw [slotFree_log, outstanding, outstanding_dequeueLog]

theorem Inv.free {w : World} (h : Inv w) {p : Ptr} (hr : w.handleRef p = 0)
    (hok : UnlinkSafe w p) (hp : p < w.nextPtr) : Inv (slotFree w p) := by
  obtain ⟨hrepr, hfault⟩ := hok
  obtain ⟨hs, hh, hn, hf⟩ := destroy_frame
    (w.setSlot p { w.slots p with refs := 0, connected := false, awaiting := false }) p
  have ho := outstanding_slotFree w p
  have hslot : ∀ x, x ≠ p → (slotFree w p).slots x = w.slots x := by
    intro x hx
    rw [slotFree, hs]; exact Function.update_of_ne hx _ _
  have hself : (slotFree w p).slots p =
      { w.slots p with refs := 0, connected := false, awaiting := false } := by
    rw [slotFree, hs]; exact Function.update_self _ _ _
  have hfreed : (slotFree w p).freed = Function.update w.freed p true := by
    rw [slotFree, hf]; rfl
  have hhr : ∀ x, (slotFree w p).handleRef x = w.handleRef x := by
    intro x; rw [World.handleRef, slotFree, hh]; rfl
  refine ⟨?_, ?_, ?_, ?_, ?_, ?_, ?_, ?_⟩
  · rw [slotFree_links, ho]; exact hrepr
  · intro x hx
    rw [ho] at hx
    have hxp : x ≠ p := by rintro rfl; exact h.repr.nodup.not_mem_erase hx
    obtain ⟨h₁, h₂⟩ := h.live x (List.mem_of_mem_erase hx)
    rw [hfreed, Function.update_of_ne hxp]
    refine ⟨?_, h₂⟩
    rw [slotFree, hn]; exact h₁
  · intro x s
    rw [slotFree, hh]; exact h.own x s
  · intro x
    rw [hhr]
    by_cases hx : x = p
    · subst hx
      rw [World.busRef, hself, hr]; simp
    · rw [World.busRef, hslot x hx]; exact h.refs x
  · intro x
    by_cases hx : x = p
    · subst hx; rw [hself]; simp
    · rw [hslot x hx]; exact h.alive x
  · intro x hge
    have hge' : w.nextPtr ≤ x := by rw [slotFree, hn] at hge; exact hge
    have hx : x ≠ p := Nat.ne_of_gt (Nat.lt_of_lt_of_le hp hge')
    rw [hslot x hx]; exact h.fresh x hge'
  · intro x hlt
    have hlt' : x < w.nextPtr := by rw [slotFree, hn] at hlt; exact hlt
    rw [hfreed]
    by_cases hx : x = p
    · subst hx; rw [hself]; simp
    · rw [hslot x hx, Function.update_of_ne hx]; exact h.gone x hlt'
  · intro x hx
    rw [slotFree_log] at hx
    rcases List.mem_cons.mp hx with hx | hx
    · simp at hx
    rcases List.mem_append.mp hx with hx | hx
    · exact hfault x hx
    · exact h.noFault x hx

/-- Dropping one reference that is neither the handle's nor the bus's. -/
theorem Inv.unref {w : World} (h : Inv w) {p : Ptr}
    (hr : w.handleRef p + w.busRef p < (w.slots p).refs)
    (hok : (w.slots p).refs = 1 → UnlinkSafe w p) : Inv (slotUnref w p) := by
  have hp : p < w.nextPtr := by
    by_contra hge
    have := h.fresh p (Nat.le_of_not_lt hge)
    omega
  by_cases h1 : (w.slots p).refs ≤ 1
  · rw [slotUnref_last h1]
    exact h.free (by omega) (hok (by omega)) hp
  · rw [slotUnref_more (by omega)]
    have hb : w.busRef p = ((w.slots p).floating && (w.slots p).connected).toNat := rfl
    refine h.setSlot ?_ ?_ ?_
    · simp only; omega
    · simp only; omega
    · intro _; simp only; omega

end JanetSdbus.Async
