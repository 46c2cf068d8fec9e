import JanetSdbus.Schemes.Replace
import JanetSdbus.Schemes.Run
import Mathlib.Data.Int.Notation
import Mathlib.Logic.Function.Basic

/-! How long an exported interface lives.

    `export` puts two things into the garbage collector's roots, the connection and the dictionary of
    members, and gives sd-bus a state that has both. The slot of the vtable floats: the bus holds it,
    and the handle that `export` returns, and sd-bus while a handler runs. What the last of them lets
    go calls `destroy_export_callback`. No handler ever runs on freed memory or on a dictionary that
    was collected (`run_safe`), and `lifetime` says when an export ends. -/

namespace JanetSdbus.Export.Lifetime
open Schemes.Run Schemes.Replace

/-- The arguments of `janet_gcroot`: the connection, or a dictionary. -/
inductive Root where
  | bus
  | members (t : ℕ)
  deriving DecidableEq

/-- Who has the abstract `sdbus/slot`: Janet code or nobody; the collector may have run `dbus_slot_gc`. -/
inductive Ref where | user | dropped | finalized
  deriving DecidableEq

/-- The `sd_bus_slot` of a vtable, its `ExportState`, and its handle. -/
structure Slot where
  members : ℕ
  refs : ℕ
  floating : Bool
  /-- `slot->bus` is not NULL -/
  connected : Bool
  /-- a handler is running -/
  running : Bool
  ref : Ref
  /-- `*slot_ptr` is not NULL -/
  handle : Bool
  /-- `destroy_export_callback` has run -/
  freed : Bool
  /-- a ghost: `cancel` has found the slot -/
  cancelled : Bool

structure World where
  slots : List Slot
  /-- references to the `sd_bus`; it is freed with the last of them -/
  busRefs : ℕ
  /-- those of messages -/
  pins : ℕ
  /-- `conn->bus` is not NULL -/
  bus : Bool
  /-- `dbus_bus_gc` has run -/
  finalized : Bool
  collected : ℕ → Bool
  roots : List Root
  /-- something was freed twice, or used after it was freed -/
  fault : Bool

/-! ### sd-bus and `destroy_export_callback` -/

/-- `slot` instead of the `n`-th one; without references it is disconnected and freed, and the
    callback runs `FREE_EXPORT_STATE`. -/
def World.put (w : World) (n : ℕ) (s : Slot) : World :=
  if s.refs = 0 then
    { w with
      slots := w.slots.set n { s with connected := false, freed := true }
      roots := (w.roots.erase .bus).erase (.members s.members)
      fault := w.fault || s.freed }
  else { w with slots := w.slots.set n s }

/-- `bus_slot_disconnect(slot, true)`: a floating slot loses the reference of the bus. -/
def detach (w : World) (n : ℕ) : World :=
  match w.slots[n]? with
  | some s =>
    if s.connected then
      w.put n { s with connected := false, refs := if s.floating then s.refs - 1 else s.refs }
    else w
  | none => w

/-- The bus is freed: its slots are disconnected. -/
def busFree (w : World) : World := (List.range w.slots.length).foldl detach w

/-- `sd_bus_unref`. -/
def busUnref (w : World) : World :=
  if w.busRefs = 0 then { w with fault := true }
  else if w.busRefs = 1 then busFree { w with busRefs := 0 }
  else { w with busRefs := w.busRefs - 1 }

/-- `sd_bus_slot_unref` by the holder that `drop` takes off the books. A slot that does not float
    holds the bus. -/
def slotUnref (w : World) (n : ℕ) (drop : Slot → Slot) : World :=
  match w.slots[n]? with
  | some s =>
    if s.refs = 0 then { w with fault := true }
    else
      let w' := w.put n { drop s with refs := s.refs - 1 }
      if s.refs = 1 ∧ (drop s).connected ∧ (drop s).floating = false then busUnref w' else w'
  | none => w

/-- `sd_bus_slot_set_floating(slot, 0)`; a disconnected slot answers -ESTALE and stays as it is. -/
def slotUnfloat (w : World) (n : ℕ) : World :=
  match w.slots[n]? with
  | some s =>
    if s.floating ∧ s.connected then
      slotUnref { w with busRefs := w.busRefs + 1 } n fun s => { s with floating := false }
    else w
  | none => w

/-! ### export.c and slot.c -/

/-- What `sd_bus_add_object_vtable` stores through the handle, after `sd_bus_slot_set_floating(slot, 1)`. -/
def newSlot (members : ℕ) : Slot where
  members := members
  refs := 2
  floating := true
  connected := true
  running := false
  ref := .user
  handle := true
  freed := false
  cancelled := false

/-- The end of `cfun_export`, given what `sd_bus_add_object_vtable` returned. -/
def cfunExport (w : World) (members : ℕ) (rv : ℤ) : World :=
  let w := { w with roots := .bus :: .members members :: w.roots }
  if rv < 0 then { w with roots := (w.roots.erase .bus).erase (.members members) }
  else { w with slots := w.slots ++ [newSlot members] }

/-- sd-bus calls `method_handler` or a property handler, with a reference of its own to the slot and
    one to the bus. The handler reads the state and the dictionary, and passes the connection on. -/
def enterHandler (w : World) (n : ℕ) (s : Slot) : World :=
  { w with
    slots := w.slots.set n { s with refs := s.refs + 1, running := true }
    busRefs := w.busRefs + 1
    fault := w.fault || s.freed || w.collected s.members || w.finalized }

/-- The handler has returned. -/
def leaveHandler (w : World) (n : ℕ) : World :=
  busUnref (slotUnref w n fun s => { s with running := false })

/-- `sd_bus_slot_unrefp(slot_ptr); *slot_ptr = NULL;` -/
def releaseHandle (w : World) (n : ℕ) : World := slotUnref w n fun s => { s with handle := false }

/-- `cfun_cancel_slot`. -/
def cfunCancelSlot (w : World) (n : ℕ) (s : Slot) : World :=
  if s.handle then
    releaseHandle (slotUnfloat { w with slots := w.slots.set n { s with cancelled := true } } n) n
  else w

/-- `dbus_slot_gc`. -/
def dbusSlotGc (w : World) (n : ℕ) (s : Slot) : World :=
  let w := { w with slots := w.slots.set n { s with ref := .finalized } }
  if s.handle then releaseHandle w n else w

/-- `sd_bus_flush_close_unref(conn->bus)`. -/
def closeUnref (w : World) : World := if w.bus then busUnref { w with bus := false } else w

/-! ### Steps -/

inductive Step where
  | export (members : ℕ) (rv : ℤ)
  | enter (n : ℕ)
  | leave (n : ℕ)
  | cancel (n : ℕ)
  | dropHandle (n : ℕ)
  | gcHandle (n : ℕ)
  | gcMembers (t : ℕ)
  | gcBus
  | closeBus
  /-- a message is created or received, and it is freed -/
  | pin
  | unpin
  deriving DecidableEq

def step (w : World) : Step → Option World
  | .export members rv =>
    if w.finalized = false ∧ w.collected members = false ∧ (0 ≤ rv → w.bus = true) then
      some (cfunExport w members rv)
    else none
  | .enter n => w.slots[n]?.bind fun s =>
    -- sd-bus handles one message at a time
    if w.bus = true ∧ s.connected = true ∧ w.slots.all (fun s => !s.running) = true then
      some (enterHandler w n s)
    else none
  | .leave n => w.slots[n]?.bind fun s => if s.running then some (leaveHandler w n) else none
  | .cancel n => w.slots[n]?.bind fun s => if s.ref = .user then some (cfunCancelSlot w n s) else none
  | .dropHandle n => w.slots[n]?.bind fun s =>
    if s.ref = .user then some { w with slots := w.slots.set n { s with ref := .dropped } } else none
  | .gcHandle n => w.slots[n]?.bind fun s => if s.ref = .dropped then some (dbusSlotGc w n s) else none
  | .gcMembers t =>
    if .members t ∉ w.roots then some { w with collected := Function.update w.collected t true } else none
  | .gcBus => if .bus ∉ w.roots ∧ w.finalized = false then some (closeUnref { w with finalized := true }) else none
  | .closeBus => if w.finalized = false then some (closeUnref w) else none
  | .pin => if 0 < w.busRefs then some { w with pins := w.pins + 1, busRefs := w.busRefs + 1 } else none
  | .unpin => if 0 < w.pins then some (busUnref { w with pins := w.pins - 1 }) else none

/-- A connection that was just opened. -/
def initial : World where
  slots := []
  busRefs := 1
  pins := 0
  bus := true
  finalized := false
  collected := fun _ => false
  roots := []
  fault := false

/-! ### Counting -/

namespace Slot

/-- Who holds the slot: the handle, the bus, a running handler. -/
def holders (s : Slot) : ℕ := s.handle.toNat + (s.floating && s.connected).toNat + s.running.toNat

/-- The references to the bus that a slot stands for: its own, and that of `sd_bus_process`. -/
def pull (s : Slot) : ℕ := (s.connected && !s.floating).toNat + s.running.toNat

structure Ok (s : Slot) : Prop where
  refs : s.refs = s.holders
  freed : s.freed = true ↔ s.refs = 0
  dead : s.refs = 0 → s.connected = false

/-- The slot that `put` puts back. -/
def settled (s : Slot) : Slot := if s.refs = 0 then { s with connected := false, freed := true } else s

theorem settled_ok {s : Slot} (hrefs : s.refs = s.holders) (hfreed : s.freed = false) : s.settled.Ok := by
  rw [settled]
  split
  · next h =>
    refine ⟨?_, ⟨fun _ => h, fun _ => rfl⟩, fun _ => rfl⟩
    rw [holders, h] at hrefs
    simp only [holders, Bool.and_false, Bool.toNat_false]
    omega
  · next h => exact ⟨hrefs, ⟨fun hf => absurd (hfreed.symm.trans hf) (by simp), fun h0 => absurd h0 h⟩,
      fun h0 => absurd h0 h⟩

end Slot

def live (s : Slot) : Bool := !s.freed

def liveOf (t : ℕ) (s : Slot) : Bool := !s.freed && s.members = t

/-- What the release of a slot keeps: the roots are those of the slots that live, and nothing that a
    live slot needs is gone. -/
structure Kept (w : World) : Prop where
  slots : ∀ s ∈ w.slots, s.Ok
  busRoots : w.roots.count .bus = w.slots.countP live
  memberRoots : ∀ t, w.roots.count (.members t) = w.slots.countP (liveOf t)
  collected : ∀ t, w.collected t = true → .members t ∉ w.roots
  finalized : w.finalized = true → .bus ∉ w.roots
  fault : w.fault = false

/-- The references to the bus are counted, but for `k` that are about to be dropped. -/
structure Inv (k : ℕ) (w : World) : Prop extends Kept w where
  busRefs : w.busRefs = w.bus.toNat + w.pins + (w.slots.map Slot.pull).sum + k
  alive : 0 < w.busRefs → ∀ s ∈ w.slots, s.connected = true ∨ (s.freed = true ∧ s.floating = false)
  disconnected : w.busRefs = 0 → ∀ s ∈ w.slots, s.connected = false
  closed : w.finalized = true → w.bus = false

variable {w w' : World} {n : ℕ} {s s' : Slot} {k : ℕ}

theorem put_slots (w : World) (n : ℕ) (s : Slot) : (w.put n s).slots = w.slots.set n s.settled := by
  rw [World.put, Slot.settled]
  split <;> rfl

theorem put_bus (w : World) (n : ℕ) (s : Slot) : (w.put n s).bus = w.bus ∧ (w.put n s).pins = w.pins ∧
    (w.put n s).busRefs = w.busRefs ∧ (w.put n s).finalized = w.finalized := by
  rw [World.put]
  split <;> exact ⟨rfl, rfl, rfl, rfl⟩

/-- A slot that lives is replaced by itself with other holders. -/
theorem Kept.put (h : Kept w) (hn : w.slots[n]? = some s) (hlive : s.freed = false)
    (hmembers : s'.members = s.members) (hfreed : s'.freed = false) (hrefs : s'.refs = s'.holders) :
    Kept (w.put n s') := by
  have hok := forall_replace hn h.slots (Slot.settled_ok hrefs hfreed)
  have hbus := countP_replace live hn s'.settled
  have hmem := fun t => countP_replace (liveOf t) hn s'.settled
  rw [World.put]
  rw [Slot.settled] at hok hbus hmem
  split
  · next h0 =>
    rw [if_pos h0] at hok hbus
    simp only [if_pos h0] at hmem
    refine ⟨hok, ?_, fun t => ?_, fun t ht => ?_, fun hf => ?_, ?_⟩
    · rw [List.count_erase_of_ne (by simp), List.count_erase_self, h.busRoots]
      simp only [live, hlive, Bool.not_false, Bool.not_true, Bool.toNat_true, Bool.toNat_false] at hbus ⊢
      omega
    · have hchange := hmem t
      simp only [liveOf, hlive, Bool.not_false, Bool.not_true, Bool.true_and, Bool.false_and,
        Bool.toNat_false] at hchange
      have hcount : ((w.roots.erase .bus).erase (.members s'.members)).count (.members t) +
          (decide (s.members = t)).toNat = w.slots.countP (liveOf t) := by
        have hroots := h.memberRoots t
        rw [hmembers]
        by_cases ht : s.members = t
        · subst ht
          rw [List.count_erase_self, List.count_erase_of_ne (by simp)]
          simp only [decide_true, Bool.toNat_true] at hchange ⊢
          omega
        · rw [List.count_erase_of_ne (by simpa using Ne.symm ht), List.count_erase_of_ne (by simp), hroots]
          simp only [ht, decide_false, Bool.toNat_false, Nat.add_zero]
      dsimp only
      omega
    · exact fun hmem => h.collected t ht (List.mem_of_mem_erase (List.mem_of_mem_erase hmem))
    · exact fun hmem => h.finalized hf (List.mem_of_mem_erase (List.mem_of_mem_erase hmem))
    · rw [h.fault, hfreed]
      rfl
  · next h0 =>
    rw [if_neg h0] at hok hbus
    simp only [if_neg h0] at hmem
    refine ⟨hok, ?_, fun t => ?_, h.collected, h.finalized, h.fault⟩
    · simp only [live, hlive, hfreed] at hbus
      dsimp only
      rw [h.busRoots]
      omega
    · have hchange := hmem t
      simp only [liveOf, hlive, hfreed, hmembers] at hchange
      dsimp only
      rw [h.memberRoots t]
      omega

/-! ### Other slots -/

/-- What the release of another holder leaves of a slot. -/
structure Slot.Same (s s' : Slot) : Prop where
  members : s'.members = s.members
  floating : s'.floating = s.floating
  running : s'.running = s.running
  ref : s'.ref = s.ref
  handle : s'.handle = s.handle
  cancelled : s'.cancelled = s.cancelled
  connected : s'.connected = true → s.connected = true

theorem Slot.Same.refl (s : Slot) : s.Same s := ⟨rfl, rfl, rfl, rfl, rfl, rfl, id⟩

theorem Slot.Same.trans {s₁ s₂ s₃ : Slot} (h : s₁.Same s₂) (h' : s₂.Same s₃) : s₁.Same s₃ :=
  ⟨h'.members.trans h.members, h'.floating.trans h.floating, h'.running.trans h.running,
    h'.ref.trans h.ref, h'.handle.trans h.handle, h'.cancelled.trans h.cancelled,
    fun hc => h.connected (h'.connected hc)⟩

theorem Slot.same_settled (s : Slot) : s.Same s.settled := by
  rw [Slot.settled]
  split
  · exact ⟨rfl, rfl, rfl, rfl, rfl, rfl, fun hc => absurd hc (by simp)⟩
  · exact Slot.Same.refl s

/-- Every slot is there, with the same holders but the bus. -/
structure Keeps (w w' : World) : Prop where
  length : w'.slots.length = w.slots.length
  same : ∀ (n : ℕ) (s s' : Slot), w.slots[n]? = some s → w'.slots[n]? = some s' → s.Same s'
  bus : w'.bus = w.bus ∧ w'.pins = w.pins ∧ w'.finalized = w.finalized

theorem Keeps.refl (w : World) : Keeps w w := by
  refine ⟨rfl, fun n s s' hs hs' => ?_, rfl, rfl, rfl⟩
  obtain rfl := Option.some.inj (hs.symm.trans hs')
  exact Slot.Same.refl s

theorem Keeps.withBus {busRefs : ℕ} {fault : Bool} (h : Keeps w w') :
    Keeps w { w' with busRefs := busRefs, fault := fault } := ⟨h.length, h.same, h.bus⟩

theorem Keeps.get (h : Keeps w w') (hn : w.slots[n]? = some s) : ∃ s', w'.slots[n]? = some s' := by
  have hlt := (List.getElem?_eq_some_iff.mp hn).1
  rw [← h.length] at hlt
  exact ⟨_, List.getElem?_eq_getElem hlt⟩

theorem Keeps.before (h : Keeps w w') (hn : w'.slots[n]? = some s') :
    ∃ s, w.slots[n]? = some s ∧ s.Same s' := by
  have hlt := (List.getElem?_eq_some_iff.mp hn).1
  rw [h.length] at hlt
  have hget := List.getElem?_eq_getElem hlt
  exact ⟨_, hget, h.same n _ s' hget hn⟩

theorem Keeps.trans {w₁ w₂ w₃ : World} (h : Keeps w₁ w₂) (h' : Keeps w₂ w₃) : Keeps w₁ w₃ := by
  obtain ⟨hbus, hpins, hfinalized⟩ := h.bus
  obtain ⟨hbus', hpins', hfinalized'⟩ := h'.bus
  refine ⟨h'.length.trans h.length, fun n s₁ s₃ hs₁ hs₃ => ?_, hbus'.trans hbus, hpins'.trans hpins,
    hfinalized'.trans hfinalized⟩
  obtain ⟨s₂, hs₂⟩ := h.get hs₁
  exact (h.same n s₁ s₂ hs₁ hs₂).trans (h'.same n s₂ s₃ hs₂ hs₃)

theorem keeps_put (hn : w.slots[n]? = some s) (hsame : s.Same s') : Keeps w (w.put n s') := by
  obtain ⟨hbus, hpins, -, hfinalized⟩ := put_bus w n s'
  refine ⟨by rw [put_slots, List.length_set], fun m t t' ht ht' => ?_, hbus, hpins, hfinalized⟩
  rw [put_slots] at ht'
  rcases get_replace hn ht' with ⟨rfl, rfl⟩ | ⟨-, hold⟩
  · obtain rfl := Option.some.inj (hn.symm.trans ht)
    exact hsame.trans s'.same_settled
  · obtain rfl := Option.some.inj (ht.symm.trans hold)
    exact Slot.Same.refl t

theorem keeps_detach (w : World) (n : ℕ) : Keeps w (detach w n) := by
  rw [detach]
  split
  · next s hn =>
    split
    · exact keeps_put hn ⟨rfl, rfl, rfl, rfl, rfl, rfl, fun hc => absurd hc (by simp)⟩
    · exact Keeps.refl w
  · exact Keeps.refl w

theorem detach_disconnected (hn : (detach w n).slots[n]? = some s) : s.connected = false := by
  rw [detach] at hn
  split at hn
  · next s₀ hn₀ =>
    split at hn
    · rw [put_slots, get_replaced hn₀] at hn
      obtain rfl := Option.some.inj hn
      exact Bool.eq_false_iff.mpr fun hc => absurd ((Slot.same_settled _).connected hc) (by simp)
    · next hno =>
      obtain rfl := Option.some.inj (hn₀.symm.trans hn)
      exact Bool.eq_false_iff.mpr hno
  · next hnone => exact absurd (hnone.symm.trans hn) (by simp)

theorem Kept.detach (h : Kept w) (n : ℕ) : Kept (detach w n) := by
  rw [Lifetime.detach]
  split
  · next s hn =>
    split
    · next hc =>
      have hok := h.slots s (List.mem_of_getElem? hn)
      have hlive : s.freed = false := Bool.eq_false_iff.mpr fun hf =>
        absurd (hok.dead (hok.freed.mp hf)) (by simp [hc])
      refine h.put hn hlive rfl hlive ?_
      have hrefs := hok.refs
      simp only [Slot.holders, hc, Bool.and_true, Bool.and_false, Bool.toNat_false] at hrefs ⊢
      cases hfl : s.floating with
      | true =>
        simp only [hfl, Bool.toNat_true] at hrefs
        simp only [if_true]
        omega
      | false =>
        simp only [hfl, Bool.toNat_false] at hrefs
        simp only [Bool.false_eq_true, if_false]
        omega
    · exact h
  · exact h

/-- Detaching some slots. -/
theorem keeps_detachAll : ∀ (ns : List ℕ) (w : World), Keeps w (ns.foldl detach w)
  | [], w => Keeps.refl w
  | n :: ns, w => (keeps_detach w n).trans (keeps_detachAll ns (detach w n))

theorem kept_detachAll : ∀ (ns : List ℕ) {w : World}, Kept w → Kept (ns.foldl detach w) ∧
    ∀ n ∈ ns, ∀ s, (ns.foldl detach w).slots[n]? = some s → s.connected = false
  | [], w, h => ⟨h, fun n hn => absurd hn (by simp)⟩
  | m :: ns, w, h => by
    obtain ⟨hkept, hall⟩ := kept_detachAll ns (h.detach m)
    refine ⟨hkept, fun n hn s hs => ?_⟩
    rcases List.mem_cons.mp hn with rfl | hn
    · have hkeeps := keeps_detachAll ns (detach w n)
      have hlt : n < (detach w n).slots.length := by
        rw [← hkeeps.length]
        exact (List.getElem?_eq_some_iff.mp hs).1
      have hget := List.getElem?_eq_getElem hlt
      have hsame := hkeeps.same n _ s hget hs
      exact Bool.eq_false_iff.mpr fun hc =>
        absurd (detach_disconnected hget) (by simp [hsame.connected hc])
    · exact hall n hn s hs

theorem busRefs_detachAll : ∀ (ns : List ℕ) (w : World), (ns.foldl detach w).busRefs = w.busRefs
  | [], _ => rfl
  | n :: ns, w => by
    have hfirst : (detach w n).busRefs = w.busRefs := by
      rw [detach]
      split
      · split
        · exact (put_bus w n _).2.2.1
        · rfl
      · rfl
    rw [List.foldl_cons, busRefs_detachAll ns, hfirst]

theorem keeps_busFree (w : World) : Keeps w (busFree w) := keeps_detachAll _ w

theorem kept_busFree (h : Kept w) : Kept (busFree w) ∧ ∀ s ∈ (busFree w).slots, s.connected = false := by
  obtain ⟨hkept, hall⟩ := kept_detachAll (List.range w.slots.length) h
  refine ⟨hkept, fun s hs => ?_⟩
  obtain ⟨n, hn⟩ := List.mem_iff_getElem?.mp hs
  have hlt := (List.getElem?_eq_some_iff.mp hn).1
  rw [(keeps_busFree w).length] at hlt
  exact hall n (List.mem_range.mpr hlt) s hn

/-! ### The last references -/

theorem pull_eq_zero (h : (w.slots.map Slot.pull).sum = 0) (hs : s ∈ w.slots) : s.pull = 0 :=
  List.sum_eq_zero_iff_forall_eq_nat.mp h _ (List.mem_map_of_mem hs)

theorem pull_disconnected (hc : s.connected = false) : s.pull = s.running.toNat := by
  rw [Slot.pull, hc, Bool.false_and, Bool.toNat_false, Nat.zero_add]

/-- One of the references that are about to be dropped. -/
theorem Inv.busUnref (h : Inv (k + 1) w) : Inv k (busUnref w) := by
  have hbus := h.busRefs
  rw [Lifetime.busUnref, if_neg (by omega)]
  split
  · next hone =>
    -- nobody has the bus any more
    have hkept : Kept { w with busRefs := 0 } :=
      ⟨h.slots, h.busRoots, h.memberRoots, h.collected, h.finalized, h.fault⟩
    obtain ⟨hkept, hnone⟩ := kept_busFree hkept
    have hkeeps := keeps_busFree { w with busRefs := 0 }
    obtain ⟨hbus', hpins', hfinalized'⟩ := hkeeps.bus
    have hzero : (busFree { w with busRefs := 0 }).busRefs = 0 := busRefs_detachAll _ _
    have hsum : (w.slots.map Slot.pull).sum = 0 := by omega
    have hpull : ((busFree { w with busRefs := 0 }).slots.map Slot.pull).sum = 0 := by
      rw [List.sum_eq_zero_iff_forall_eq_nat]
      intro p hp
      obtain ⟨s', hs', rfl⟩ := List.mem_map.mp hp
      obtain ⟨n, hn'⟩ := List.mem_iff_getElem?.mp hs'
      obtain ⟨s, hn, hsame⟩ := hkeeps.before hn'
      have hbefore := pull_eq_zero hsum (List.mem_of_getElem? hn)
      rw [pull_disconnected (hnone s' hs'), hsame.running]
      rw [Slot.pull] at hbefore
      omega
    refine ⟨hkept, ?_, fun hpos => absurd hpos (by omega), fun _ => hnone, fun hf => ?_⟩
    · rw [hbus', hpins', hpull, hzero]
      dsimp only
      omega
    · rw [hfinalized'] at hf
      rw [hbus']
      exact h.closed hf
  · next hmore =>
    refine ⟨⟨h.slots, h.busRoots, h.memberRoots, h.collected, h.finalized, h.fault⟩, ?_, ?_, ?_, h.closed⟩
    · dsimp only
      omega
    · exact fun _ => h.alive (by omega)
    · intro hzero
      dsimp only at hzero
      omega

theorem keeps_busUnref (w : World) : Keeps w (busUnref w) := by
  rw [busUnref]
  split
  · exact (Keeps.refl w).withBus
  · split
    · exact (Keeps.refl w).withBus.trans (keeps_busFree _)
    · exact (Keeps.refl w).withBus

theorem Inv.put {j : ℕ} (h : Inv j w) (hn : w.slots[n]? = some s) (hlive : s.freed = false)
    (hmembers : s'.members = s.members) (hfreed : s'.freed = false) (hrefs : s'.refs = s'.holders)
    (hconnected : s'.connected = s.connected) (hpull : s.pull + j = s'.settled.pull + k) :
    Inv k (w.put n s') := by
  obtain ⟨hbus, hpins, hbusRefs, hfinalized⟩ := put_bus w n s'
  have hsum := sum_replace Slot.pull hn s'.settled
  have hcount := h.busRefs
  have hmem := List.mem_of_getElem? hn
  refine ⟨h.toKept.put hn hlive hmembers hfreed hrefs, ?_, ?_, ?_, ?_⟩
  · rw [put_slots, hbus, hpins, hbusRefs]
    omega
  · rw [put_slots, hbusRefs]
    intro hpos
    refine forall_replace hn (h.alive hpos) ?_
    have hc : s'.connected = true := by
      rw [hconnected]
      exact (h.alive hpos s hmem).resolve_right fun hdead => absurd hdead.1 (by simp [hlive])
    rw [Slot.settled]
    split
    · next hzero =>
      rw [hzero, Slot.holders, hc, Bool.and_true] at hrefs
      refine .inr ⟨rfl, ?_⟩
      cases hfl : s'.floating with
      | false => rfl
      | true =>
        rw [hfl, Bool.toNat_true] at hrefs
        omega
    · exact .inl hc
  · rw [put_slots, hbusRefs]
    intro hzero
    refine forall_replace hn (h.disconnected hzero) ?_
    refine Bool.eq_false_iff.mpr fun hc => ?_
    have hold := hconnected.symm.trans (s'.same_settled.connected hc)
    exact absurd (h.disconnected hzero s hmem) (by simp [hold])
  · rw [hbus, hfinalized]
    exact h.closed

/-- A holder lets a slot go that lives. -/
theorem Inv.slotUnref {j : ℕ} (h : Inv j w) (hn : w.slots[n]? = some s) (hlive : s.freed = false)
    {drop : Slot → Slot} (hmembers : (drop s).members = s.members) (hfreed : (drop s).freed = s.freed)
    (hconnected : (drop s).connected = s.connected) (hholders : (drop s).holders + 1 = s.holders)
    (hpull : s.pull + j = (drop s).pull + k) : Inv k (slotUnref w n drop) := by
  have hrefs := (h.slots s (List.mem_of_getElem? hn)).refs
  rw [Lifetime.slotUnref, hn]
  simp only
  rw [if_neg (by omega)]
  generalize hs' : ({ drop s with refs := s.refs - 1 } : Slot) = s'
  have hrefs' : s'.refs = s.refs - 1 := by rw [← hs']
  have hholders' : s'.holders = (drop s).holders := by rw [← hs']; rfl
  have hpull' : s'.pull = (drop s).pull := by rw [← hs']; rfl
  have hconnected' : s'.connected = (drop s).connected := by rw [← hs']
  have hfloating' : s'.floating = (drop s).floating := by rw [← hs']
  have hmembers' : s'.members = s.members := by rw [← hs']; exact hmembers
  have hfreed' : s'.freed = false := by rw [← hs']; exact hfreed.trans hlive
  rw [← hconnected', ← hfloating']
  rw [← hconnected'] at hconnected
  split
  · next hlast =>
    -- the slot does not float and takes its reference to the bus with it
    obtain ⟨hone, hc, hfl⟩ := hlast
    refine Inv.busUnref (h.put hn hlive hmembers' hfreed' (by omega) hconnected ?_)
    have hsettled : s'.settled.pull + 1 = s'.pull := by
      rw [Slot.settled, if_pos (by omega), Slot.pull, Slot.pull, hc, hfl]
      simp only [Bool.toNat_false, Bool.not_false, Bool.and_true, Bool.toNat_true]
      omega
    omega
  · next hno =>
    refine h.put hn hlive hmembers' hfreed' (by omega) hconnected ?_
    have hsettled : s'.settled.pull = s'.pull := by
      rw [Slot.settled]
      split
      · next hzero =>
        rw [Slot.pull, Slot.pull]
        cases hc : s'.connected with
        | false => rfl
        | true =>
          have hfl : s'.floating = true := by
            cases hfl : s'.floating with
            | true => rfl
            | false => exact absurd ⟨by omega, hc, hfl⟩ hno
          rw [hfl]
          rfl
      · rfl
    omega

/-- The holder is off the books, and nothing else has changed. -/
theorem keeps_slotUnref (hn : w.slots[n]? = some s) (hrefs : s.refs ≠ 0) (drop : Slot → Slot) :
    Keeps { w with slots := w.slots.set n (drop s) } (slotUnref w n drop) := by
  rw [slotUnref, hn]
  simp only
  rw [if_neg hrefs]
  have hput : Keeps { w with slots := w.slots.set n (drop s) } (w.put n { drop s with refs := s.refs - 1 }) := by
    obtain ⟨hbus, hpins, -, hfinalized⟩ := put_bus w n { drop s with refs := s.refs - 1 }
    refine ⟨by rw [put_slots, List.length_set, List.length_set], fun m t t' ht ht' => ?_, hbus, hpins,
      hfinalized⟩
    rw [put_slots] at ht'
    by_cases hm : m = n
    · subst hm
      rw [get_replaced hn] at ht ht'
      obtain rfl := Option.some.inj ht
      obtain rfl := Option.some.inj ht'
      refine Slot.Same.trans ?_ (Slot.same_settled _)
      exact ⟨rfl, rfl, rfl, rfl, rfl, rfl, id⟩
    · rw [get_other hm] at ht ht'
      obtain rfl := Option.some.inj (ht.symm.trans ht')
      exact Slot.Same.refl t
  split
  · exact hput.trans (keeps_busUnref _)
  · exact hput

/-- Changes that nobody counts. -/
theorem Inv.set (h : Inv k w) (hn : w.slots[n]? = some s)
    (hsame : s.Same { s' with ref := s.ref, cancelled := s.cancelled }) (hrefs : s'.refs = s.refs)
    (hfreed : s'.freed = s.freed) (hconnected : s'.connected = s.connected) :
    Inv k { w with slots := w.slots.set n s' } := by
  have hok := h.slots s (List.mem_of_getElem? hn)
  have hholders : s'.holders = s.holders := by
    rw [Slot.holders, Slot.holders, hconnected, hsame.handle.symm, hsame.floating.symm, hsame.running.symm]
  have hpull : s'.pull = s.pull := by
    rw [Slot.pull, Slot.pull, hconnected, hsame.floating.symm, hsame.running.symm]
  have hlive : live s' = live s := by rw [live, live, hfreed]
  have hof : ∀ t, liveOf t s' = liveOf t s := fun t => by rw [liveOf, liveOf, hfreed, ← hsame.members]
  have hbus := countP_replace live hn s'
  have hsum := sum_replace Slot.pull hn s'
  have hcount := h.busRefs
  refine ⟨⟨?_, ?_, fun t => ?_, h.collected, h.finalized, h.fault⟩, ?_, fun hpos => ?_, fun hzero => ?_, h.closed⟩
  · refine forall_replace hn h.slots ⟨?_, ?_, ?_⟩
    · rw [hrefs, hholders, hok.refs]
    · rw [hrefs, hfreed, hok.freed]
    · rw [hrefs, hconnected]
      exact hok.dead
  · rw [hlive] at hbus
    dsimp only
    rw [h.busRoots]
    omega
  · have hmem := countP_replace (liveOf t) hn s'
    rw [hof] at hmem
    dsimp only
    rw [h.memberRoots]
    omega
  · dsimp only
    omega
  · refine forall_replace hn (h.alive hpos) ?_
    have hfloating : s'.floating = s.floating := hsame.floating
    rw [hconnected, hfreed, hfloating]
    exact h.alive hpos s (List.mem_of_getElem? hn)
  · refine forall_replace hn (h.disconnected hzero) ?_
    rw [hconnected]
    exact h.disconnected hzero s (List.mem_of_getElem? hn)

/-! ### Every step -/

/-- Between two steps. -/
structure Slot.Settled (s : Slot) : Prop where
  cancelled : s.cancelled = true → s.handle = false ∧ (s.connected = true → s.floating = false)
  unfloated : s.floating = false → s.cancelled = true
  finalized : s.ref = .finalized → s.handle = false

theorem Slot.Settled.same (h : s.Settled) (hsame : s.Same s') : s'.Settled := by
  refine ⟨fun hc => ?_, fun hf => ?_, fun hr => ?_⟩
  · rw [hsame.cancelled] at hc
    rw [hsame.handle, hsame.floating]
    exact ⟨(h.cancelled hc).1, fun hconn => (h.cancelled hc).2 (hsame.connected hconn)⟩
  · rw [hsame.floating] at hf
    rw [hsame.cancelled]
    exact h.unfloated hf
  · rw [hsame.ref] at hr
    rw [hsame.handle]
    exact h.finalized hr

structure Good (w : World) : Prop extends Inv 0 w where
  settled : ∀ s ∈ w.slots, s.Settled

theorem Keeps.settled (h : Keeps w w') (hall : ∀ s ∈ w.slots, s.Settled) : ∀ s ∈ w'.slots, s.Settled := by
  intro s' hs'
  obtain ⟨n, hn'⟩ := List.mem_iff_getElem?.mp hs'
  obtain ⟨s, hn, hsame⟩ := h.before hn'
  exact (hall s (List.mem_of_getElem? hn)).same hsame

/-- A slot that somebody holds lives. -/
theorem Slot.Ok.live (h : s.Ok) (hheld : s.holders ≠ 0) : s.freed = false :=
  Bool.eq_false_iff.mpr fun hf => hheld (h.refs ▸ h.freed.mp hf)

theorem Slot.Ok.connected_live (h : s.Ok) (hc : s.connected = true) : s.freed = false :=
  Bool.eq_false_iff.mpr fun hf => absurd (h.dead (h.freed.mp hf)) (by simp [hc])

theorem holders_handle (hh : s.handle = true) : s.holders ≠ 0 := by
  rw [Slot.holders, hh, Bool.toNat_true]
  omega

theorem holders_running (hr : s.running = true) : s.holders ≠ 0 := by
  rw [Slot.holders, hr, Bool.toNat_true]
  omega

/-- The roots of a slot that lives. -/
theorem Kept.mem_roots (h : Kept w) (hs : s ∈ w.slots) (hlive : s.freed = false) :
    .bus ∈ w.roots ∧ .members s.members ∈ w.roots := by
  constructor
  · rw [← List.count_pos_iff, h.busRoots, List.countP_pos_iff]
    exact ⟨s, hs, by simp [live, hlive]⟩
  · rw [← List.count_pos_iff, h.memberRoots, List.countP_pos_iff]
    exact ⟨s, hs, by simp [liveOf, hlive]⟩

theorem Inv.releaseHandle (h : Inv k w) (hn : w.slots[n]? = some s) (hh : s.handle = true) :
    Inv k (releaseHandle w n) ∧
      Keeps { w with slots := w.slots.set n { s with handle := false } } (releaseHandle w n) := by
  have hok := h.slots s (List.mem_of_getElem? hn)
  have hheld := holders_handle hh
  have hrefs : s.refs ≠ 0 := by rwa [hok.refs]
  refine ⟨h.slotUnref hn (hok.live hheld) rfl rfl rfl ?_ rfl,
    keeps_slotUnref hn hrefs fun s => { s with handle := false }⟩
  simp only [Slot.holders, hh, Bool.toNat_true, Bool.toNat_false]
  omega

theorem Good.export (h : Good w) {members : ℕ} {rv : ℤ}
    (hguard : w.finalized = false ∧ w.collected members = false ∧ (0 ≤ rv → w.bus = true)) :
    Good (cfunExport w members rv) := by
  obtain ⟨hfinalized, hcollected, hbus⟩ := hguard
  rw [cfunExport]
  split
  · -- the two roots are taken back
    simp only [List.erase_cons_head]
    exact h
  · next hrv =>
    have hbus := hbus (by omega)
    have hcount := h.busRefs
    have hpos : 0 < w.busRefs := by
      rw [hcount, hbus, Bool.toNat_true]
      omega
    have hall : ∀ {P : Slot → Prop}, (∀ s ∈ w.slots, P s) → P (newSlot members) →
        ∀ s ∈ w.slots ++ [newSlot members], P s := by
      intro P hold hnew s hs
      rcases List.mem_append.mp hs with hs | hs
      · exact hold s hs
      · rw [List.mem_singleton.mp hs]
        exact hnew
    refine ⟨⟨⟨?_, ?_, fun t => ?_, fun t ht => ?_, fun hf => ?_, h.fault⟩, ?_, fun _ => ?_, fun hzero => ?_, ?_⟩, ?_⟩
    · exact hall h.slots ⟨rfl, by simp [newSlot], by simp [newSlot]⟩
    · simp only [List.count_cons, List.countP_append, h.busRoots]
      rfl
    · simp only [List.count_cons, List.countP_append, h.memberRoots]
      by_cases ht : members = t <;> simp [ht, liveOf, newSlot]
    · intro hmem
      simp only [List.mem_cons, reduceCtorEq, Root.members.injEq, false_or] at hmem
      rcases hmem with rfl | hmem
      · exact absurd (ht.symm.trans hcollected) (by simp)
      · exact h.collected t ht hmem
    · exact absurd (hf.symm.trans hfinalized) (by simp)
    · simp only [List.map_append, List.sum_append]
      simpa [newSlot, Slot.pull] using hcount
    · exact hall (h.alive hpos) (.inl rfl)
    · exact absurd hzero (by dsimp only; omega)
    · exact h.closed
    · exact hall h.settled ⟨by simp [newSlot], by simp [newSlot], by simp [newSlot]⟩

theorem Good.enter (h : Good w) (hn : w.slots[n]? = some s) (hbus : w.bus = true) (hc : s.connected = true)
    (hidle : s.running = false) : Good (enterHandler w n s) := by
  have hs := List.mem_of_getElem? hn
  have hok := h.slots s hs
  have hlive := hok.connected_live hc
  obtain ⟨hroot, hmembers⟩ := h.mem_roots hs hlive
  generalize hs' : ({ s with refs := s.refs + 1, running := true } : Slot) = s'
  have hlive' : s'.freed = false := by rw [← hs']; exact hlive
  have hconnected' : s'.connected = true := by rw [← hs']; exact hc
  have hcounted := countP_replace live hn s'
  have hsum := sum_replace Slot.pull hn s'
  have hpull : s'.pull = s.pull + 1 := by
    rw [← hs', Slot.pull, Slot.pull, hidle]
    rfl
  have hcount := h.busRefs
  rw [enterHandler, hs']
  refine ⟨⟨⟨?_, ?_, fun t => ?_, h.collected, h.finalized, ?_⟩, ?_, fun _ => ?_, fun hzero => ?_, h.closed⟩, ?_⟩
  · refine forall_replace hn h.slots ⟨?_, ⟨fun hf => ?_, fun h0 => ?_⟩, fun h0 => ?_⟩
    · have hrefs := hok.refs
      rw [← hs']
      simp only [Slot.holders, hidle, Bool.toNat_false, Bool.toNat_true] at hrefs ⊢
      omega
    · exact absurd (hlive'.symm.trans hf) (by simp)
    · simp [← hs'] at h0
    · simp [← hs'] at h0
  · rw [live, live, hlive, hlive'] at hcounted
    dsimp only
    rw [h.busRoots]
    omega
  · have hof := countP_replace (liveOf t) hn s'
    have hsame : liveOf t s' = liveOf t s := by rw [← hs']; rfl
    rw [hsame] at hof
    dsimp only
    rw [h.memberRoots]
    omega
  · have hcollected : w.collected s.members = false := Bool.eq_false_iff.mpr fun hc => h.collected _ hc hmembers
    have hfinalized : w.finalized = false := Bool.eq_false_iff.mpr fun hf => h.finalized hf hroot
    simp only [h.fault, hlive, hcollected, hfinalized, Bool.or_false]
  · dsimp only
    omega
  · refine forall_replace hn (h.alive ?_) (.inl hconnected')
    rw [hcount, hbus, Bool.toNat_true]
    omega
  · exact absurd hzero (by simp)
  · obtain ⟨hcancelled, hunfloated, hfinal⟩ := h.settled s hs
    refine forall_replace hn h.settled ?_
    rw [← hs']
    exact ⟨hcancelled, hunfloated, hfinal⟩

theorem Good.leave (h : Good w) (hn : w.slots[n]? = some s) (hr : s.running = true) :
    Good (leaveHandler w n) := by
  have hs := List.mem_of_getElem? hn
  have hok := h.slots s hs
  have hheld := holders_running hr
  have hrefs : s.refs ≠ 0 := by rwa [hok.refs]
  have hinv : Inv 1 (slotUnref w n fun s => { s with running := false }) := by
    refine h.slotUnref hn (hok.live hheld) rfl rfl rfl ?_ ?_
    · simp only [Slot.holders, hr, Bool.toNat_true, Bool.toNat_false]
    · simp only [Slot.pull, hr, Bool.toNat_true, Bool.toNat_false]
  refine ⟨hinv.busUnref, ((keeps_slotUnref hn hrefs _).trans (keeps_busUnref _)).settled ?_⟩
  obtain ⟨hcancelled, hunfloated, hfinal⟩ := h.settled s hs
  exact forall_replace hn h.settled ⟨hcancelled, hunfloated, hfinal⟩

/-- Unfloating takes the reference of the bus away, and the slot has the bus instead. -/
theorem Inv.slotUnfloat (h : Inv 0 w) (hn : w.slots[n]? = some s) : Inv 0 (slotUnfloat w n) ∧
    Keeps { w with slots := w.slots.set n { s with floating := s.floating && !s.connected } }
      (slotUnfloat w n) := by
  have hs := List.mem_of_getElem? hn
  have hok := h.slots s hs
  rw [Lifetime.slotUnfloat, hn]
  simp only
  split
  · next hcond =>
    obtain ⟨hfl, hc⟩ := hcond
    have hpos : 0 < w.busRefs := Nat.pos_of_ne_zero fun h0 =>
      absurd (h.disconnected h0 s hs) (by simp [hc])
    have hcount := h.busRefs
    have hmore : Inv 1 { w with busRefs := w.busRefs + 1 } := by
      refine ⟨⟨h.slots, h.busRoots, h.memberRoots, h.collected, h.finalized, h.fault⟩, ?_,
        fun _ => h.alive hpos, fun h0 => absurd h0 (by simp), h.closed⟩
      dsimp only
      omega
    have hheld : s.refs ≠ 0 := by
      rw [hok.refs, Slot.holders, hfl, hc]
      simp only [Bool.and_true, Bool.toNat_true]
      omega
    refine ⟨hmore.slotUnref hn (hok.connected_live hc) rfl rfl rfl ?_ ?_, ?_⟩
    · simp only [Slot.holders, hfl, hc, Bool.and_true, Bool.toNat_true, Bool.toNat_false]
      omega
    · simp only [Slot.pull, hfl, hc, Bool.not_true, Bool.not_false, Bool.and_true, Bool.and_false,
        Bool.toNat_true, Bool.toNat_false]
      omega
    · have hkeeps := keeps_slotUnref (w := { w with busRefs := w.busRefs + 1 }) hn hheld
        fun s => { s with floating := false }
      have hnot : (s.floating && !s.connected) = false := by rw [hfl, hc]; rfl
      rw [hnot]
      exact ⟨hkeeps.length, hkeeps.same, hkeeps.bus⟩
  · next hcond =>
    refine ⟨h, ?_⟩
    have hsame : (s.floating && !s.connected) = s.floating := by
      cases hfl : s.floating with
      | false => rfl
      | true =>
        cases hc : s.connected with
        | false => rfl
        | true => exact absurd ⟨hfl, hc⟩ hcond
    rw [hsame, set_same hn]
    exact Keeps.refl w

/-- `cancel` of a handle that has a slot. -/
theorem Good.cancel (h : Good w) (hn : w.slots[n]? = some s) : Good (cfunCancelSlot w n s) := by
  rw [cfunCancelSlot]
  split
  · next hh =>
    have hset : Inv 0 { w with slots := w.slots.set n { s with cancelled := true } } :=
      h.toInv.set hn ⟨rfl, rfl, rfl, rfl, rfl, rfl, id⟩ rfl rfl rfl
    have hn₁ := get_replaced hn { s with cancelled := true }
    obtain ⟨hinv, hkeeps⟩ := hset.slotUnfloat hn₁
    have hn₂ := get_replaced hn₁
      { s with cancelled := true, floating := s.floating && !s.connected }
    obtain ⟨t, hn₃⟩ := hkeeps.get hn₂
    have hsame := hkeeps.same n _ t hn₂ hn₃
    obtain ⟨hrelease, hkeeps'⟩ := hinv.releaseHandle hn₃ (hsame.handle.trans hh)
    refine ⟨hrelease, hkeeps'.settled ?_⟩
    -- the other slots are settled, and this one has no handle
    intro z hz
    obtain ⟨m, hm⟩ := List.mem_iff_getElem?.mp hz
    rcases get_replace hn₃ hm with ⟨-, rfl⟩ | ⟨hne, hold⟩
    · refine ⟨fun _ => ⟨rfl, fun hc => ?_⟩, fun _ => hsame.cancelled, fun _ => rfl⟩
      have hconn : s.connected = true := hsame.connected hc
      rw [hsame.floating]
      show (s.floating && !s.connected) = false
      rw [hconn, Bool.not_true, Bool.and_false]
    · obtain ⟨u, hu, hsame'⟩ := hkeeps.before hold
      rw [get_other hne, get_other hne] at hu
      exact (h.settled u (List.mem_of_getElem? hu)).same hsame'
  · exact h

theorem Good.gcHandle (h : Good w) (hn : w.slots[n]? = some s) : Good (dbusSlotGc w n s) := by
  have hset : Inv 0 { w with slots := w.slots.set n { s with ref := .finalized } } :=
    h.toInv.set hn ⟨rfl, rfl, rfl, rfl, rfl, rfl, id⟩ rfl rfl rfl
  have hn₁ := get_replaced hn { s with ref := .finalized }
  obtain ⟨hcancelled, hunfloated, hfinal⟩ := h.settled s (List.mem_of_getElem? hn)
  rw [dbusSlotGc]
  split
  · next hh =>
    obtain ⟨hinv, hkeeps⟩ := hset.releaseHandle hn₁ hh
    refine ⟨hinv, hkeeps.settled ?_⟩
    dsimp only
    rw [List.set_set]
    exact forall_replace hn h.settled
      ⟨fun hc => ⟨rfl, (hcancelled hc).2⟩, hunfloated, fun _ => rfl⟩
  · next hh =>
    exact ⟨hset, forall_replace hn h.settled ⟨hcancelled, hunfloated, fun _ => Bool.eq_false_iff.mpr hh⟩⟩

/-- `close-bus`, or the end of the connection. -/
theorem Good.closeUnref (h : Good w) (finalized : Bool) (hf : finalized = true → .bus ∉ w.roots) :
    Good (closeUnref { w with finalized := finalized }) := by
  have hcount := h.busRefs
  rw [Lifetime.closeUnref]
  split
  · next hbus =>
    rw [hbus, Bool.toNat_true] at hcount
    have hinv : Inv 1 { w with finalized := finalized, bus := false } := by
      refine ⟨⟨h.slots, h.busRoots, h.memberRoots, h.collected, hf, h.fault⟩, ?_, h.alive,
        h.disconnected, fun _ => rfl⟩
      simp only [Bool.toNat_false]
      omega
    refine ⟨hinv.busUnref, (keeps_busUnref _).settled h.settled⟩
  · next hbus =>
    exact ⟨⟨⟨h.slots, h.busRoots, h.memberRoots, h.collected, hf, h.fault⟩, h.busRefs, h.alive,
      h.disconnected, fun _ => Bool.eq_false_iff.mpr hbus⟩, h.settled⟩

theorem Good.dropHandle (h : Good w) (hn : w.slots[n]? = some s) :
    Good { w with slots := w.slots.set n { s with ref := .dropped } } := by
  obtain ⟨hcancelled, hunfloated, -⟩ := h.settled s (List.mem_of_getElem? hn)
  refine ⟨h.toInv.set hn ⟨rfl, rfl, rfl, rfl, rfl, rfl, id⟩ rfl rfl rfl, ?_⟩
  exact forall_replace hn h.settled ⟨hcancelled, hunfloated, fun hr => by cases hr⟩

/-- The collector takes a table that is no root. -/
theorem Good.gcMembers (h : Good w) {t : ℕ} (hroot : .members t ∉ w.roots) :
    Good { w with collected := Function.update w.collected t true } := by
  refine ⟨⟨⟨h.slots, h.busRoots, h.memberRoots, fun u hu => ?_, h.finalized, h.fault⟩, h.busRefs,
    h.alive, h.disconnected, h.closed⟩, h.settled⟩
  by_cases hut : u = t
  · rw [hut]
    exact hroot
  · simp only [Function.update_of_ne hut] at hu
    exact h.collected u hu

/-- Another holder of the connection. -/
theorem Good.pin (h : Good w) (hpos : 0 < w.busRefs) :
    Good { w with pins := w.pins + 1, busRefs := w.busRefs + 1 } := by
  have hcount := h.busRefs
  refine ⟨⟨⟨h.slots, h.busRoots, h.memberRoots, h.collected, h.finalized, h.fault⟩, ?_,
    fun _ => h.alive hpos, fun h0 => absurd h0 (by simp), h.closed⟩, h.settled⟩
  dsimp only
  omega

theorem Good.unpin (h : Good w) (hpos : 0 < w.pins) : Good (busUnref { w with pins := w.pins - 1 }) := by
  have hcount := h.busRefs
  have hinv : Inv 1 { w with pins := w.pins - 1 } := by
    refine ⟨⟨h.slots, h.busRoots, h.memberRoots, h.collected, h.finalized, h.fault⟩, ?_, h.alive,
      h.disconnected, h.closed⟩
    dsimp only
    omega
  exact ⟨hinv.busUnref, (keeps_busUnref _).settled h.settled⟩

theorem Good.step (h : Good w) {a : Step} (hs : Lifetime.step w a = some w') : Good w' := by
  cases a with
  | «export» members rv =>
    rw [Lifetime.step] at hs
    split at hs
    · next hguard =>
      obtain rfl := Option.some.inj hs
      exact h.export hguard
    · exact absurd hs (by simp)
  | enter n =>
    obtain ⟨s, hn, hs⟩ := Option.bind_eq_some_iff.mp hs
    split at hs
    · next hguard =>
      obtain rfl := Option.some.inj hs
      obtain ⟨hbus, hc, hidle⟩ := hguard
      exact h.enter hn hbus hc (by simpa using List.all_eq_true.mp hidle s (List.mem_of_getElem? hn))
    · exact absurd hs (by simp)
  | leave n =>
    obtain ⟨s, hn, hs⟩ := Option.bind_eq_some_iff.mp hs
    split at hs
    · next hr =>
      obtain rfl := Option.some.inj hs
      exact h.leave hn hr
    · exact absurd hs (by simp)
  | cancel n =>
    obtain ⟨s, hn, hs⟩ := Option.bind_eq_some_iff.mp hs
    split at hs
    · obtain rfl := Option.some.inj hs
      exact h.cancel hn
    · exact absurd hs (by simp)
  | dropHandle n =>
    obtain ⟨s, hn, hs⟩ := Option.bind_eq_some_iff.mp hs
    split at hs
    · obtain rfl := Option.some.inj hs
      exact h.dropHandle hn
    · exact absurd hs (by simp)
  | gcHandle n =>
    obtain ⟨s, hn, hs⟩ := Option.bind_eq_some_iff.mp hs
    split at hs
    · obtain rfl := Option.some.inj hs
      exact h.gcHandle hn
    · exact absurd hs (by simp)
  | gcMembers t =>
    rw [Lifetime.step] at hs
    split at hs
    · next hroot =>
      obtain rfl := Option.some.inj hs
      exact h.gcMembers hroot
    · exact absurd hs (by simp)
  | gcBus =>
    rw [Lifetime.step] at hs
    split at hs
    · next hguard =>
      obtain rfl := Option.some.inj hs
      exact h.closeUnref true fun _ => hguard.1
    · exact absurd hs (by simp)
  | closeBus =>
    rw [Lifetime.step] at hs
    split at hs
    · next hguard =>
      obtain rfl := Option.some.inj hs
      exact h.closeUnref w.finalized h.finalized
    · exact absurd hs (by simp)
  | pin =>
    rw [Lifetime.step] at hs
    split at hs
    · next hpos =>
      obtain rfl := Option.some.inj hs
      exact h.pin hpos
    · exact absurd hs (by simp)
  | unpin =>
    rw [Lifetime.step] at hs
    split at hs
    · next hpos =>
      obtain rfl := Option.some.inj hs
      exact h.unpin hpos
    · exact absurd hs (by simp)

/-! ### Every run -/

theorem Good.initial : Good initial := by
  have hnone : ∀ {P : Slot → Prop}, ∀ s ∈ Lifetime.initial.slots, P s := fun s hs => absurd hs (by simp [Lifetime.initial])
  refine ⟨⟨⟨hnone, rfl, fun _ => rfl, fun t ht => ?_, fun hf => ?_, rfl⟩, rfl, fun _ => hnone, fun _ => hnone,
    fun hf => ?_⟩, hnone⟩
  · exact absurd ht (by simp [Lifetime.initial])
  · exact absurd hf (by simp [Lifetime.initial])
  · exact absurd hf (by simp [Lifetime.initial])

theorem good_run {as : List Step} (hrun : exec step initial as = some w) : Good w :=
  (Meets.of_forall (p := fun _ => True) fun _ _ => trivial).invariant
    (fun _ _ _ hi _ hs => hi.step hs) Good.initial hrun

/-- A slot that does not float and is not cancelled is running a handler. -/
theorem Good.pull_idle (h : Good w) (hs : s ∈ w.slots) (hidle : s.running = false) : s.pull = 0 := by
  rw [Slot.pull, hidle]
  cases hc : s.connected with
  | false => rfl
  | true =>
    cases hfl : s.floating with
    | true => rfl
    | false =>
      -- it was cancelled: nobody holds it, and it is gone
      have hcancelled := (h.settled s hs).unfloated hfl
      have hok := h.slots s hs
      have hrefs := hok.refs
      rw [Slot.holders, hfl, hidle, ((h.settled s hs).cancelled hcancelled).1] at hrefs
      exact absurd (hok.dead hrefs) (by simp [hc])

/-- No handler has run without its state, its dictionary or its connection, and nothing was freed twice;
    whatever garbage collections there are in between. The roots are those of the interfaces that live,
    as often as each is exported. -/
theorem run_safe (as : List Step) (w : World) (hrun : exec step initial as = some w) :
    w.fault = false ∧
    (∀ s ∈ w.slots, s.freed = false → w.collected s.members = false ∧ w.finalized = false) ∧
    w.roots.count .bus = w.slots.countP (fun s => !s.freed) ∧
    ∀ t, w.roots.count (.members t) = w.slots.countP fun s => !s.freed && s.members = t := by
  have h := good_run hrun
  refine ⟨h.fault, fun s hs hlive => ?_, h.busRoots, h.memberRoots⟩
  obtain ⟨hbus, hmembers⟩ := h.mem_roots hs hlive
  exact ⟨Bool.eq_false_iff.mpr fun hc => h.collected _ hc hmembers,
    Bool.eq_false_iff.mpr fun hf => h.finalized hf hbus⟩

/-- A handler that cancels its own interface, and a collection of the dictionary afterwards. -/
theorem run_safe_cancelled : ∃ w, exec step initial
    [.export 0 0, .enter 0, .cancel 0, .leave 0, .gcMembers 0, .closeBus] = some w ∧ w.fault = false := by
  obtain ⟨w, hrun⟩ : ∃ w, exec step initial
    [.export 0 0, .enter 0, .cancel 0, .leave 0, .gcMembers 0, .closeBus] = some w := ⟨_, rfl⟩
  exact ⟨w, hrun, (run_safe _ w hrun).1⟩

/-- As long as the bus is there, an interface lives until it is cancelled and its handler has returned,
    whatever becomes of its handle; the bus is freed when it is closed and no message and no handler holds
    it; and then an interface lives as long as its handle has it. So nothing is left behind when the
    connection is closed and messages and handles are collected. -/
theorem lifetime (as : List Step) (w : World) (hrun : exec step initial as = some w) :
    (∀ s ∈ w.slots, 0 < w.busRefs → (s.freed = true ↔ s.cancelled = true ∧ s.running = false)) ∧
    (w.busRefs = 0 ↔ w.bus = false ∧ w.pins = 0 ∧ ∀ s ∈ w.slots, s.running = false) ∧
    (∀ s ∈ w.slots, w.busRefs = 0 → (s.freed = true ↔ s.handle = false)) ∧
    ((∀ s ∈ w.slots, s.ref = .finalized) → w.busRefs = 0 → w.roots = []) := by
  have h := good_run hrun
  have hcount := h.busRefs
  have hidle : w.busRefs = 0 → ∀ s ∈ w.slots, s.running = false := by
    intro hzero s hs
    have hpull := pull_eq_zero (w := w) (by omega) hs
    rw [pull_disconnected (h.disconnected hzero s hs)] at hpull
    cases hr : s.running with
    | false => rfl
    | true => simp [hr] at hpull
  have hdead : ∀ s ∈ w.slots, w.busRefs = 0 → (s.freed = true ↔ s.handle = false) := by
    intro s hs hzero
    have hok := h.slots s hs
    rw [hok.freed, hok.refs, Slot.holders, h.disconnected hzero s hs, hidle hzero s hs]
    cases s.handle <;> simp
  refine ⟨fun s hs hpos => ?_, ⟨fun hzero => ?_, ?_⟩, hdead, fun hall hzero => ?_⟩
  · have hok := h.slots s hs
    have hsettled := h.settled s hs
    have halive := h.alive hpos s hs
    have hrefs := hok.refs
    rw [Slot.holders] at hrefs
    constructor
    · intro hf
      have hnone := hok.freed.mp hf
      have hunfloated := (halive.resolve_left (by simp [hok.dead hnone])).2
      refine ⟨hsettled.unfloated hunfloated, ?_⟩
      cases hr : s.running with
      | false => rfl
      | true => simp [hr, hnone] at hrefs
    · rintro ⟨hc, hr⟩
      obtain ⟨hhandle, hfl⟩ := hsettled.cancelled hc
      rcases halive with hconn | hdead
      · rw [hhandle, hfl hconn, hr] at hrefs
        exact hok.freed.mpr hrefs
      · exact hdead.1
  · refine ⟨?_, by omega, hidle hzero⟩
    cases hb : w.bus with
    | false => rfl
    | true => simp [hb] at hcount; omega
  · rintro ⟨hb, hpins, hrunning⟩
    have hsum : (w.slots.map Slot.pull).sum = 0 := by
      rw [List.sum_eq_zero_iff_forall_eq_nat]
      intro p hp
      obtain ⟨s, hs, rfl⟩ := List.mem_map.mp hp
      exact h.pull_idle hs (hrunning s hs)
    rw [hcount, hb, hpins, hsum]
    rfl
  · have hfreed : ∀ s ∈ w.slots, s.freed = true := fun s hs =>
      (hdead s hs hzero).mpr ((h.settled s hs).finalized (hall s hs))
    rw [List.eq_nil_iff_forall_not_mem]
    intro r hr
    rw [← List.count_pos_iff] at hr
    cases r with
    | bus =>
      rw [h.busRoots, List.countP_pos_iff] at hr
      obtain ⟨s, hs, hlive⟩ := hr
      simp [live, hfreed s hs] at hlive
    | members t =>
      rw [h.memberRoots, List.countP_pos_iff] at hr
      obtain ⟨s, hs, hlive⟩ := hr
      simp [liveOf, hfreed s hs] at hlive

/-- A handle is collected, and the connection is closed. -/
theorem lifetime_closed : ∃ w, exec step initial [.export 0 0, .dropHandle 0, .gcHandle 0, .closeBus] = some w ∧
    w.roots = [] := by
  obtain ⟨w, hrun, hslots, hbus⟩ : ∃ w, exec step initial
      [.export 0 0, .dropHandle 0, .gcHandle 0, .closeBus] = some w ∧
      (∀ s ∈ w.slots, s.ref = .finalized) ∧ w.busRefs = 0 := ⟨_, rfl, by decide, rfl⟩
  exact ⟨w, hrun, (lifetime _ w hrun).2.2.2 hslots hbus⟩

end JanetSdbus.Export.Lifetime
