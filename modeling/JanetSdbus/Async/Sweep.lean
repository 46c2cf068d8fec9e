import JanetSdbus.Async.Effect

/-! What `closeall_pending` touches.

    A turn of the loop reads the record, gives to its channel, lets go of its handle and writes
    through the record again. `Sweepable` says when the record, the channel and the handle are still
    there for all of it; `busCallback_faults` and `cfunCloseBus_faults` that a
    sweep touches nothing that is gone exactly when every queued record is sweepable. -/

namespace JanetSdbus.Async
open Schemes.LinkedList Schemes.Run

variable {w w' w₀ : World} {p x : Ptr} {l : List Ptr} {tuple : Tuple} {es : List Event}

/-- The use of a finalized object. -/
def Event.use : Event → Bool
  | .finalizedHandle _ | .finalizedChan _ => true
  | _ => false

/-- ... or an access to a freed record. -/
def Event.fault : Event → Bool
  | .freedRecord _ _ => true
  | e => e.use

def uses (l : List Event) : ℕ := l.countP Event.use

def faults (l : List Event) : ℕ := l.countP Event.fault

def World.opened (w : World) (p : Ptr) : Prop := (w.chans (w.heap p).chan).closed = false

/-- The channel of record `p` takes a tuple: it is open, and the collector has left it. -/
def World.takes (w : World) (p : Ptr) : Prop := w.opened p ∧ (w.chans (w.heap p).chan).finalized = false

instance (w : World) (p : Ptr) : Decidable (w.opened p) := by unfold World.opened; infer_instance

instance (w : World) (p : Ptr) : Decidable (w.takes p) := by unfold World.takes; infer_instance

/-- The loop can visit the record: its channel and its handle are there, and the handle does not hold
    the last reference to the slot (it does for a refused match), whose release would free the record. -/
structure Sweepable (w : World) (p : Ptr) : Prop where
  chan : (w.chans (w.heap p).chan).finalized = false
  handle : (w.handles p).finalized = false
  kept : (w.handles p).slot = some p → 1 < (w.slots p).refs

theorem sweepable_iff : Sweepable w p ↔ (w.chans (w.heap p).chan).finalized = false ∧
    (w.handles p).finalized = false ∧ ((w.handles p).slot = some p → 1 < (w.slots p).refs) :=
  ⟨fun h => ⟨h.chan, h.handle, h.kept⟩, fun h => ⟨h.1, h.2.1, h.2.2⟩⟩

instance (w : World) (p : Ptr) : Decidable (Sweepable w p) := decidable_of_iff _ sweepable_iff.symm

/-- It depends on the record's own view and on the channels. -/
theorem Sweepable.congr (hv : w'.view p = w.view p) (hc : w'.chans = w.chans) :
    Sweepable w' p ↔ Sweepable w p := by
  have hchan : (w'.heap p).chan = (w.heap p).chan := congrArg View.chan hv
  have hhandle : w'.handles p = w.handles p := congrArg View.handle hv
  have hslot : w'.slots p = w.slots p := congrArg View.slot hv
  rw [sweepable_iff, sweepable_iff, hc, hchan, hhandle, hslot]

/-- A step that sweeps the queue, from `w` to `w'`, touched no freed record and no finalized object. -/
def SweepIntact (w : World) (s : Step) (w' : World) : Prop :=
  s.sweeps = true → faults w'.log = faults w.log

/-! ### Counting -/

theorem faults_append (l l' : List Event) : faults (l ++ l') = faults l + faults l' := List.countP_append

theorem uses_append (l l' : List Event) : uses (l ++ l') = uses l + uses l' := List.countP_append

theorem use_of_quiet {e : Event} (h : e.quiet p = true) : e.use = false := by
  cases e <;> simp_all [Event.quiet, Event.use]

theorem uses_quiet (h : ∀ e ∈ es, e.quiet p = true) : uses es = 0 := by
  refine List.countP_eq_zero.mpr fun e he => ?_
  rw [use_of_quiet (h e he)]
  exact Bool.false_ne_true

/-- Giving to a channel uses nothing that is gone exactly when the channel is not. -/
theorem uses_giveLog (src : Source) (t : Tuple) :
    uses (w.giveLog src p t) = 0 ↔ (w.chans (w.heap p).chan).finalized = false := by
  rw [World.giveLog, World.chanFault]
  cases (w.chans (w.heap p).chan).closed <;> cases (w.chans (w.heap p).chan).finalized <;> simp [uses, Event.use]

theorem faults_freedOf_none (site : Site) (ps : List Ptr) (h : ∀ q ∈ ps, w.freed q = false) :
    faults (w.freedOf site ps) = 0 := by
  refine List.countP_eq_zero.mpr fun e he => ?_
  obtain ⟨q, hq, hfreed, rfl⟩ := mem_freedOf.mp he
  exact absurd (hfreed.symm.trans (h q hq)) (by decide)

theorem faults_freedOf_one {site : Site} (h : w.freed p = true) : faults (w.freedOf site [p]) = 1 := by
  simp [World.freedOf, h, faults]
  rfl

/-- What the loop logs before it lets go of the handle. -/
theorem faults_closeallLog (tuple : Tuple) (hp : w.freed p = false) : faults (w.closeallLog tuple p) = 0 ↔
    (w.handles p).finalized = false ∧ (w.chans (w.heap p).chan).finalized = false := by
  have hfreed : faults (w.freedOf .closeall [p]) = 0 := faults_freedOf_none .closeall [p] (by simpa using hp)
  have hwrote : faults (.wrote .closeall p (w.heap p).chan tuple :: (w.chanFault p ++ w.freedOf .closeall [p])) =
      faults (w.chanFault p) := by
    rw [← Nat.add_zero (faults (w.chanFault p)), ← hfreed, ← faults_append]
    rfl
  rw [World.closeallLog, faults_append, hwrote, World.chanFault]
  cases (w.handles p).finalized <;> cases (w.chans (w.heap p).chan).finalized <;> simp [faults, Event.fault, Event.use]

/-! ### One turn of the loop -/

/-- Letting go of the handle frees the record exactly when the handle held the last reference. -/
theorem releaseHandle_frees (h : Inv w) (hp : w.freed p = false) :
    ((releaseHandle w p).freed p = false ∧ (releaseHandle w p).log = w.log ∧
        ((w.handles p).slot = some p → 1 < (w.slots p).refs)) ∨
      ((releaseHandle w p).freed p = true ∧ (w.handles p).slot = some p ∧ (w.slots p).refs ≤ 1) := by
  cases hs : (w.handles p).slot with
  | none =>
    rw [releaseHandle_none hs]
    exact Or.inl ⟨hp, rfl, by simp⟩
  | some s =>
    obtain rfl := h.own p s hs
    rw [releaseHandle_eq hs]
    by_cases hlast : (w.slots s).refs ≤ 1
    · rw [slotUnref_last (w := w.setHandle s _) hlast, slotFree, (destroy_frame _ s).2.2.2]
      exact Or.inr ⟨Function.update_self .., rfl, hlast⟩
    · rw [slotUnref_more (w := w.setHandle s _) (Nat.lt_of_not_le hlast)]
      exact Or.inl ⟨hp, rfl, fun _ => Nat.lt_of_not_le hlast⟩

/-- The log only grows. -/
theorem faults_le (hlog : w'.log = es ++ w.log) : faults w.log ≤ faults w'.log := by
  rw [hlog, faults_append]
  exact Nat.le_add_left _ _

/-- A turn that came back touched nothing that is gone exactly when the record was sweepable. -/
theorem closeallVisit_faults (h : Inv w) (hp : p ∈ outstanding w.log)
    (hc : closeallVisit tuple w p = .done w') :
    faults w.log ≤ faults w'.log ∧ (faults w'.log = faults w.log ↔ Sweepable w p) := by
  have hv := closeallVisit_ends h tuple p
  rw [hc] at hv
  obtain ⟨es, f, -⟩ := hv.frame
  refine ⟨faults_le f.log, ?_⟩
  have hlive : w.freed p = false := (h.live p hp).2
  have hplain := h.logged (closeallLog_plain w tuple p)
  rw [closeallVisit_open hv.opened] at hc
  obtain rfl := Outcome.done.inj hc
  show faults ((releaseHandle (w.logged (w.closeallLog tuple p)) p).freedOf .closeall [p] ++
    (releaseHandle (w.logged (w.closeallLog tuple p)) p).log) = _ ↔ _
  rw [faults_append]
  rcases releaseHandle_frees hplain hlive with ⟨hkept, hlog, hrefs⟩ | ⟨hgone, hslot, hlast⟩
  · have hafter := faults_freedOf_none .closeall [p] fun q hq => by
      rw [List.mem_singleton.mp hq]; exact hkept
    have hbefore := faults_closeallLog tuple hlive
    have hsum : faults (w.logged (w.closeallLog tuple p)).log = faults (w.closeallLog tuple p) + faults w.log :=
      faults_append _ _
    rw [hafter, hlog, hsum, Nat.zero_add, Nat.add_eq_right, hbefore, sweepable_iff]
    exact ⟨fun ⟨hh, hch⟩ => ⟨hch, hh, hrefs⟩, fun ⟨hch, hh, _⟩ => ⟨hh, hch⟩⟩
  · -- `*p->slot = NULL` goes through the record that the unref has just freed
    have hafter : faults ((releaseHandle _ p).freedOf .closeall [p]) = 1 := faults_freedOf_one hgone
    obtain ⟨es', f', -⟩ := Quiet.release hplain p
    have hlogged : faults w.log ≤ faults (w.logged (w.closeallLog tuple p)).log := faults_le rfl
    have hgrows : faults w.log ≤ faults (releaseHandle (w.logged (w.closeallLog tuple p)) p).log :=
      Nat.le_trans hlogged (faults_le f'.log)
    rw [hafter]
    refine ⟨fun heq => absurd heq (by omega), fun hs => absurd (hs.kept hslot) (Nat.not_lt.mpr hlast)⟩

/-! ### The whole loop -/

/-- In the loop, when of the records queued in `w₀` all but `l` were visited. -/
structure Touching (w₀ : World) (l : List Ptr) (w : World) : Prop where
  members : ∀ x ∈ l, x ∈ outstanding w₀.log
  left : ∀ x ∈ l, w.view x = w₀.view x
  chans : w.chans = w₀.chans
  grows : faults w₀.log ≤ faults w.log
  faults_iff : faults w.log = faults w₀.log ↔ ∀ x ∈ outstanding w₀.log, x ∉ l → Sweepable w₀ x

theorem Touching.start (w : World) : Touching w (outstanding w.log) w :=
  ⟨fun _ hx => hx, fun _ _ => rfl, rfl, Nat.le_refl _, iff_of_true rfl fun _ hx hn => absurd hx hn⟩

theorem Touching.visit (h : Inv w) (hl : ∃ l₁, outstanding w.log = l₁ ++ p :: l) (hJ : Touching w₀ (p :: l) w) :
    (closeallVisit tuple w p).Ends (Touching w₀ l) fun _ => True := by
  obtain ⟨l₁, ho⟩ := hl
  have hpl : p ∉ l := by
    have hnd := h.repr.nodup
    rw [ho] at hnd
    exact (List.nodup_cons.mp (List.nodup_append.mp hnd).2.1).1
  have hends := closeallVisit_ends h tuple p
  cases hc : closeallVisit tuple w p with
  | diverged => rw [hc] at hends; exact hends
  | raised w' e => trivial
  | done w' =>
    rw [hc] at hends
    obtain ⟨es, f, -⟩ := hends.frame
    obtain ⟨hgrows, hone⟩ := closeallVisit_faults h (ho ▸ List.mem_append_right _ List.mem_cons_self) hc
    rw [Sweepable.congr (hJ.left p List.mem_cons_self) hJ.chans] at hone
    have hsplit : (∀ x ∈ outstanding w₀.log, x ∉ l → Sweepable w₀ x) ↔
        Sweepable w₀ p ∧ ∀ x ∈ outstanding w₀.log, x ∉ p :: l → Sweepable w₀ x := by
      constructor
      · intro hall
        exact ⟨hall p (hJ.members p List.mem_cons_self) hpl,
          fun x hx hn => hall x hx fun hxl => hn (List.mem_cons_of_mem _ hxl)⟩
      · rintro ⟨hp, hall⟩ x hx hxl
        by_cases hxp : x = p
        · exact hxp ▸ hp
        · exact hall x hx fun hn => (List.mem_cons.mp hn).elim hxp hxl
    refine ⟨fun x hx => hJ.members x (List.mem_cons_of_mem _ hx), fun x hx => ?_, f.chans.trans hJ.chans,
      Nat.le_trans hJ.grows hgrows, ?_⟩
    · have hxp : x ≠ p := by rintro rfl; exact hpl hx
      rw [hends.view_other hxp]
      exact hJ.left x (List.mem_cons_of_mem _ hx)
    · rw [hsplit, ← hone, ← hJ.faults_iff]
      have h₁ := hJ.grows
      constructor
      · intro heq
        exact ⟨by omega, by omega⟩
      · rintro ⟨heq, heq'⟩
        exact heq.trans heq'

theorem SweptFrom.faults (h : SweptFrom w w') : faults w'.log = faults w.log := by
  rcases h.events with hlog | hlog
  · rw [hlog]
  · rw [hlog]; rfl

theorem Touching.ended (hJ : Touching w₀ [] w) (hs : SweptFrom w w') :
    Async.faults w'.log = Async.faults w₀.log ↔ ∀ x ∈ outstanding w₀.log, Sweepable w₀ x := by
  rw [hs.faults, hJ.faults_iff]
  simp

/-- A bus event that ends the listener touches nothing that is gone exactly when every queued record
    is sweepable. -/
theorem busCallback_faults (h : Inv w) (ev : AsyncEvent) :
    (busCallback w ev).Ends (fun w' => faults w'.log = faults w.log ↔ ∀ x ∈ w.queued, Sweepable w x)
      fun _ => True := by
  have hb := busCallback_swept (J := fun _ => Touching w) (R := fun _ => True)
    (fun tuple p l w' hi hl hJ => hJ.visit hi hl) ev h (Touching.start w)
  cases hc : busCallback w ev with
  | diverged => rw [hc] at hb; exact hb
  | raised w₂ e => trivial
  | done w₂ =>
    rw [hc] at hb
    obtain ⟨w₃, hJ, hs, -⟩ := hb
    rw [h.queued_eq]
    exact hJ.ended hs

theorem cfunCloseBus_faults (h : Inv w) (hl : w.listening = true) :
    (cfunCloseBus w).Ends (fun w' => faults w'.log = faults w.log ↔ ∀ x ∈ w.queued, Sweepable w x)
      fun _ => True := by
  have hb := cfunCloseBus_swept (J := fun _ => Touching w) (R := fun _ => True)
    (fun tuple p l w' hi hl hJ => hJ.visit hi hl) h (Touching.start w)
  cases hc : cfunCloseBus w with
  | diverged => rw [hc] at hb; exact hb
  | raised w₂ e => trivial
  | done w₂ =>
    rw [hc] at hb
    obtain ⟨-, -, -, hb⟩ := hb
    rw [if_pos hl] at hb
    obtain ⟨w₃, hJ, hs⟩ := hb
    rw [h.queued_eq]
    exact hJ.ended hs

end JanetSdbus.Async
