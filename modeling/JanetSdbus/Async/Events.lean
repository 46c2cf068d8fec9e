import JanetSdbus.Async.Conn
import JanetSdbus.Schemes.Run

/-! What the event loop watches: `process_bus`, `setevents`, `settimeout` and their callers.

    sd-bus is a parameter. It exposes the events it wants and its deadline, and every call into it
    may change both; a call of `sd_bus_process` also runs handlers, which may change the connection.
    The flags of the bus stream and the setting of the timer are what the event loop acts on.
    `in_sync_iff` says which steps keep them equal to what sd-bus wants. -/

namespace JanetSdbus.Events
open Async Schemes.Run

def POLLIN : BitVec 32 := 0x001
def POLLOUT : BitVec 32 := 0x004

def JANET_STREAM_READABLE : BitVec 32 := 0x200
def JANET_STREAM_WRITABLE : BitVec 32 := 0x400
def JANET_STREAM_NOT_CLOSEABLE : BitVec 32 := 0x2000

def UINT64_MAX : BitVec 64 := BitVec.allOnes 64

/-- The functions of sd-bus that public operations call outside `process_bus`. -/
inductive Func where
  | sd_bus_open
  | sd_bus_call_async
  | sd_bus_add_match_async
  | sd_bus_add_object_vtable
  | sd_bus_slot_set_floating
  | sd_bus_slot_set_destroy_callback
  | sd_bus_slot_unref
  | sd_bus_message_send
  | sd_bus_list_names
  | sd_bus_is_open
  | sd_bus_get_unique_name
  deriving DecidableEq

def Func.name : Func → String
  | .sd_bus_open => "sd_bus_open"
  | .sd_bus_call_async => "sd_bus_call_async"
  | .sd_bus_add_match_async => "sd_bus_add_match_async"
  | .sd_bus_add_object_vtable => "sd_bus_add_object_vtable"
  | .sd_bus_slot_set_floating => "sd_bus_slot_set_floating"
  | .sd_bus_slot_set_destroy_callback => "sd_bus_slot_set_destroy_callback"
  | .sd_bus_slot_unref => "sd_bus_slot_unref"
  | .sd_bus_message_send => "sd_bus_message_send"
  | .sd_bus_list_names => "sd_bus_list_names"
  | .sd_bus_is_open => "sd_bus_is_open"
  | .sd_bus_get_unique_name => "sd_bus_get_unique_name"

/-- What `sd_bus_process` returns and leaves. -/
structure Processed (β : Type) where
  rv : ℤ
  bus : β
  conn : Conn

/-- sd-bus with states `β`. The two getters change nothing; a call returns its value and the next
    state, and `sd_bus_process` also the connection as its handlers leave it. -/
structure SdBus (β : Type) where
  sd_bus_get_events : β → BitVec 32
  sd_bus_get_timeout : β → BitVec 64
  sd_bus_process : β → Conn → Processed β
  call : Func → β → ℤ × β
  strerror : ℤ → String

/-- `returned`: the last operation or event callback came back normally. -/
structure State (β : Type) where
  conn : Conn
  bus : β
  returned : Bool

/-- How a C function ends; `crashed` is the use of a NULL stream, `running` one that has not ended. -/
inductive Result (β : Type) where
  | done (s : State β)
  | raised (s : State β) (msg : String)
  | crashed
  | running

variable {β : Type}

def Result.bind : Result β → (State β → Result β) → Result β
  | .done s, f => f s
  | .raised s e, _ => .raised s e
  | .crashed, _ => .crashed
  | .running, _ => .running

variable (sd : SdBus β)

/-- `CALL_SD_BUS_FUNC`. -/
def callSdBusFunc (f : Func) (s : State β) : Result β :=
  let (rv, b) := sd.call f s.bus
  let s := { s with bus := b }
  if rv < 0 then .raised s ("failed to call " ++ f.name ++ ": " ++ sd.strerror (-rv)) else .done s

/-- A call whose return value is ignored. -/
def callIgnored (f : Func) (s : State β) : State β := { s with bus := (sd.call f s.bus).2 }

/-! ### async.c -/

def getevents (b : β) : BitVec 32 :=
  let events := sd.sd_bus_get_events b
  (if events &&& POLLIN ≠ 0 then JANET_STREAM_READABLE else 0) |||
    (if events &&& POLLOUT ≠ 0 then JANET_STREAM_WRITABLE else 0)

def setevents (s : State β) : Result β :=
  match s.conn.bus_stream with
  | none => .crashed
  | some st =>
    let newflags := getevents sd s.bus
    let flags := (st.flags &&& ~~~ (JANET_STREAM_READABLE ||| JANET_STREAM_WRITABLE)) ||| newflags
    .done { s with conn := { s.conn with bus_stream := some { st with flags := flags } } }

/-- `timerfd_settime` with the absolute time `usec`. -/
def timerSpec (usec : BitVec 64) : ItimerSpec :=
  if usec = UINT64_MAX then ⟨0, 0⟩
  else ⟨usec.toNat / 1000000, usec.toNat % 1000000 * 1000⟩

/-- `settimeout`, given the `process_bus` it may call. -/
def settimeoutWith (process_bus : State β → Result β) (s : State β) : Result β :=
  let usec := sd.sd_bus_get_timeout s.bus
  if usec = 0 then process_bus s
  else
    match s.conn.timer with
    | none => .crashed
    | some tm =>
      .done { s with conn := { s.conn with timer := some { tm with setting := timerSpec usec } } }

/-- `process_bus`; `n` bounds the calls of `sd_bus_process`. -/
def processBus : ℕ → State β → Result β
  | 0, _ => .running
  | n + 1, s =>
    let r := sd.sd_bus_process s.bus s.conn
    let s := { s with bus := r.bus, conn := r.conn }
    if 0 < r.rv then processBus n s
    else if r.rv < 0 then .raised s ("failed to call sd_bus_process: " ++ sd.strerror (-r.rv))
    else (setevents sd s).bind fun s => settimeoutWith sd (processBus n) s

def settimeout (n : ℕ) (s : State β) : Result β := settimeoutWith sd (processBus sd n) s

/-- `init_async` after `timerfd_create`: two streams with their listeners. -/
def initAsync (s : State β) : State β :=
  { s with conn := { s.conn with
      timer := some { listening := true, setting := ⟨0, 0⟩ }
      bus_stream := some
        { listening := true, flags := getevents sd s.bus ||| JANET_STREAM_NOT_CLOSEABLE } } }

/-! ### Public operations -/

/-- `OPEN_BUS_CORE`. -/
def openBus (s : State β) : Result β :=
  (callSdBusFunc sd .sd_bus_open s).bind fun s =>
    .done (initAsync sd { s with conn := { s.conn with bus := true } })

def cfunCallAsync (n : ℕ) (s : State β) : Result β :=
  (callSdBusFunc sd .sd_bus_call_async s).bind fun s =>
    settimeout sd n (callIgnored sd .sd_bus_slot_set_destroy_callback
      (callIgnored sd .sd_bus_slot_set_floating s))

def cfunMatchAsync (s : State β) : Result β :=
  (callSdBusFunc sd .sd_bus_add_match_async s).bind fun s =>
    .done (callIgnored sd .sd_bus_slot_set_destroy_callback
      (callIgnored sd .sd_bus_slot_set_floating s))

def cfunMessageSend (s : State β) : Result β := callSdBusFunc sd .sd_bus_message_send s

def cfunListNames (s : State β) : Result β := callSdBusFunc sd .sd_bus_list_names s

/-- A bus that is not open answers "closed" without the second call. -/
def cfunGetUniqueName (s : State β) : Result β :=
  (callSdBusFunc sd .sd_bus_is_open s).bind fun s' =>
    if (sd.call .sd_bus_is_open s.bus).1 = 0 then .done s'
    else callSdBusFunc sd .sd_bus_get_unique_name s'

def cfunCancelSlot (s : State β) : Result β :=
  .done (callIgnored sd .sd_bus_slot_unref (callIgnored sd .sd_bus_slot_set_floating s))

/-- `set_floating` is called before the return value of `add_object_vtable` is looked at. -/
def cfunExport (s : State β) : Result β :=
  let rv := (sd.call .sd_bus_add_object_vtable s.bus).1
  let s := callIgnored sd .sd_bus_slot_set_floating (callIgnored sd .sd_bus_add_object_vtable s)
  if rv < 0 then .raised s ("failed to register D-Bus interface: " ++ sd.strerror (-rv))
  else .done (callIgnored sd .sd_bus_slot_set_destroy_callback s)

/-- `bus_callback` on HUP or ERR with `k` pending records: their handles are released and the
    listener ends. -/
def hangup : ℕ → State β → State β
  | 0, s => { s with conn := { s.conn with
      bus_stream := s.conn.bus_stream.map fun st => { st with listening := false } } }
  | k + 1, s => hangup k (callIgnored sd .sd_bus_slot_unref s)

/-- `cfun_close_bus`, as far as the streams go. -/
def cfunCloseBus (s : State β) : State β :=
  { s with conn := { bus := false, bus_stream := none, timer := none, queue := none } }

/-! ### Runs -/

inductive BusStep where
  | openBus
  | callAsync (n : ℕ)
  | matchAsync
  | messageSend
  | listNames
  | getUniqueName
  | cancel
  | exportIface
  | busEvent (n : ℕ)
  | timerEvent (n : ℕ)
  | hangup (k : ℕ)
  | closeBus

/-- The state when the operation has ended. -/
def Result.state? : Result β → Option (State β)
  | .done s => some { s with returned := true }
  | .raised s _ => some { s with returned := false }
  | .crashed => none
  | .running => none

def State.listening (s : State β) : Bool :=
  match s.conn.bus_stream with
  | some st => st.listening
  | none => false

def State.ticking (s : State β) : Bool :=
  match s.conn.timer with
  | some tm => tm.listening
  | none => false

def run (s : State β) : BusStep → Result β
  | .openBus => openBus sd s
  | .callAsync n => cfunCallAsync sd n s
  | .matchAsync => cfunMatchAsync sd s
  | .messageSend => cfunMessageSend sd s
  | .listNames => cfunListNames sd s
  | .getUniqueName => cfunGetUniqueName sd s
  | .cancel => cfunCancelSlot sd s
  | .exportIface => cfunExport sd s
  | .busEvent n => processBus sd n s
  | .timerEvent n => processBus sd n s
  | .hangup k => .done (hangup sd k s)
  | .closeBus => .done (cfunCloseBus s)

/-- A connection is opened once; an event needs its listener. -/
def enabled (s : State β) : BusStep → Bool
  | .openBus => !s.conn.bus
  | .busEvent _ | .hangup _ => s.listening
  | .timerEvent _ => s.ticking
  | _ => true

def step (s : State β) (a : BusStep) : Option (State β) :=
  if enabled s a then (run sd s a).state? else none

/-- Before `open`. -/
def fresh (b : β) : State β where
  conn := { bus := false, bus_stream := none, timer := none, queue := none }
  bus := b
  returned := false

/-! ### In sync -/

/-- The flags of the stream are the events sd-bus wants. -/
structure FlagsFit (flags : BitVec 32) (b : β) : Prop where
  readable : flags &&& JANET_STREAM_READABLE ≠ 0 ↔ sd.sd_bus_get_events b &&& POLLIN ≠ 0
  writable : flags &&& JANET_STREAM_WRITABLE ≠ 0 ↔ sd.sd_bus_get_events b &&& POLLOUT ≠ 0

/-- The timer is armed at the deadline of sd-bus, which is not in the past. -/
structure TimerFits (setting : ItimerSpec) (b : β) : Prop where
  pending : sd.sd_bus_get_timeout b ≠ 0
  disarmed : setting = ⟨0, 0⟩ ↔ sd.sd_bus_get_timeout b = UINT64_MAX
  deadline : sd.sd_bus_get_timeout b ≠ UINT64_MAX → setting.tv_nsec < 1000000000 ∧
    setting.tv_sec * 1000000000 + setting.tv_nsec = (sd.sd_bus_get_timeout b).toNat * 1000

/-- The event loop would watch exactly what sd-bus wants in state `b`. -/
def Suits (c : Conn) (b : β) : Prop :=
  ∃ st tm, c.bus_stream = some st ∧ c.timer = some tm ∧ FlagsFit sd st.flags b ∧
    TimerFits sd tm.setting b

/-- An open connection at rest is in sync. -/
def InSync (s : State β) : Prop := s.returned = true → s.conn.bus = true → Suits sd s.conn s.bus

/-- In state `b'` sd-bus wants what it wanted in state `b`. -/
structure StillWants (b b' : β) : Prop where
  readable : sd.sd_bus_get_events b' &&& POLLIN ≠ 0 ↔ sd.sd_bus_get_events b &&& POLLIN ≠ 0
  writable : sd.sd_bus_get_events b' &&& POLLOUT ≠ 0 ↔ sd.sd_bus_get_events b &&& POLLOUT ≠ 0
  deadline : sd.sd_bus_get_timeout b' = sd.sd_bus_get_timeout b

/-- What an operation that restores nothing has to leave behind: sd-bus still wants what it wanted
    before. After an operation that raised, which can have left anything behind, it happens to want what
    is watched. -/
def Unmoved (s : State β) (b' : β) : Prop :=
  if s.returned = true then StillWants sd s.bus b' else Suits sd s.conn b'

/-- The state sd-bus is in after some calls. -/
def after (fs : List Func) (b : β) : β := fs.foldl (fun b f => (sd.call f b).2) b

/-- What a step has to meet. Events of the bus and of the timer run `process_bus`, which always
    restores both halves; `call-async` restores the timer, or both if the deadline is 0; `open` sets
    the flags; every other operation must leave sd-bus wanting what it wanted before. -/
def StepOk (s : State β) : BusStep → Prop
  | .openBus => 0 ≤ (sd.call .sd_bus_open s.bus).1 →
      sd.sd_bus_get_timeout (after sd [.sd_bus_open] s.bus) = UINT64_MAX
  | .callAsync _ =>
      let b := after sd
        [.sd_bus_call_async, .sd_bus_slot_set_floating, .sd_bus_slot_set_destroy_callback] s.bus
      0 ≤ (sd.call .sd_bus_call_async s.bus).1 → s.conn.bus = true →
        sd.sd_bus_get_timeout b = 0 ∨ ∃ st, s.conn.bus_stream = some st ∧ FlagsFit sd st.flags b
  | .matchAsync => 0 ≤ (sd.call .sd_bus_add_match_async s.bus).1 → s.conn.bus = true →
      Unmoved sd s (after sd [.sd_bus_add_match_async, .sd_bus_slot_set_floating,
        .sd_bus_slot_set_destroy_callback] s.bus)
  | .messageSend => 0 ≤ (sd.call .sd_bus_message_send s.bus).1 → s.conn.bus = true →
      Unmoved sd s (after sd [.sd_bus_message_send] s.bus)
  | .listNames => 0 ≤ (sd.call .sd_bus_list_names s.bus).1 → s.conn.bus = true →
      Unmoved sd s (after sd [.sd_bus_list_names] s.bus)
  | .getUniqueName => s.conn.bus = true →
      ((sd.call .sd_bus_is_open s.bus).1 = 0 → Unmoved sd s (after sd [.sd_bus_is_open] s.bus)) ∧
      (0 < (sd.call .sd_bus_is_open s.bus).1 →
        0 ≤ (sd.call .sd_bus_get_unique_name (after sd [.sd_bus_is_open] s.bus)).1 →
        Unmoved sd s (after sd [.sd_bus_is_open, .sd_bus_get_unique_name] s.bus))
  | .cancel => s.conn.bus = true →
      Unmoved sd s (after sd [.sd_bus_slot_set_floating, .sd_bus_slot_unref] s.bus)
  | .exportIface => 0 ≤ (sd.call .sd_bus_add_object_vtable s.bus).1 → s.conn.bus = true →
      Unmoved sd s (after sd [.sd_bus_add_object_vtable, .sd_bus_slot_set_floating,
        .sd_bus_slot_set_destroy_callback] s.bus)
  | .hangup k => s.conn.bus = true →
      Unmoved sd s (after sd (List.replicate k .sd_bus_slot_unref) s.bus)
  | .busEvent _ | .timerEvent _ | .closeBus => True

/-! ### The two halves -/

variable {sd} {s s' : State β} {b : β}

theorem and_or_masked {keep new k : BitVec 32} (h : keep &&& k = 0) :
    (keep ||| new) &&& k = new &&& k := by
  rw [BitVec.and_comm, BitVec.and_or_distrib_left, BitVec.and_comm k keep, h, BitVec.and_comm k new]
  exact BitVec.zero_or

section flags
variable (p q : Prop) [Decidable p] [Decidable q]

theorem readable_iff : ((if p then JANET_STREAM_READABLE else 0) |||
    (if q then JANET_STREAM_WRITABLE else 0)) &&& JANET_STREAM_READABLE ≠ 0 ↔ p := by
  by_cases hp : p <;> by_cases hq : q <;> simp only [hp, hq, if_true, if_false] <;> decide

theorem writable_iff : ((if p then JANET_STREAM_READABLE else 0) |||
    (if q then JANET_STREAM_WRITABLE else 0)) &&& JANET_STREAM_WRITABLE ≠ 0 ↔ q := by
  by_cases hp : p <;> by_cases hq : q <;> simp only [hp, hq, if_true, if_false] <;> decide

end flags

theorem flagsFit_getevents {keep : BitVec 32} (hr : keep &&& JANET_STREAM_READABLE = 0)
    (hw : keep &&& JANET_STREAM_WRITABLE = 0) : FlagsFit sd (keep ||| getevents sd b) b where
  readable := by rw [and_or_masked hr]; exact readable_iff _ _
  writable := by rw [and_or_masked hw]; exact writable_iff _ _

/-- `setevents` clears exactly the two flags it sets again. -/
theorem masked_out (flags : BitVec 32) {k : BitVec 32}
    (h : ~~~ (JANET_STREAM_READABLE ||| JANET_STREAM_WRITABLE) &&& k = 0) :
    (flags &&& ~~~ (JANET_STREAM_READABLE ||| JANET_STREAM_WRITABLE)) &&& k = 0 := by
  rw [BitVec.and_assoc, h]
  exact BitVec.and_zero

theorem setevents_done (h : setevents sd s = .done s') :
    ∃ st, s'.conn.bus_stream = some st ∧ FlagsFit sd st.flags s'.bus ∧ s'.conn.bus = s.conn.bus := by
  rw [setevents] at h
  cases hst : s.conn.bus_stream with
  | none => simp [hst] at h
  | some st =>
    simp only [hst, Result.done.injEq] at h
    subst h
    exact ⟨_, rfl, flagsFit_getevents (masked_out _ (by decide)) (masked_out _ (by decide)), rfl⟩

theorem timerFits_spec (h : sd.sd_bus_get_timeout b ≠ 0) :
    TimerFits sd (timerSpec (sd.sd_bus_get_timeout b)) b := by
  have hpos : 0 < (sd.sd_bus_get_timeout b).toNat := by
    rcases Nat.eq_zero_or_pos (sd.sd_bus_get_timeout b).toNat with h0 | h0
    · exact absurd (BitVec.eq_of_toNat_eq (by simpa using h0)) h
    · exact h0
  refine ⟨h, ?_, fun hmax => ?_⟩
  · constructor
    · intro hz
      by_contra hmax
      rw [timerSpec, if_neg hmax, ItimerSpec.mk.injEq] at hz
      omega
    · intro hmax; rw [hmax]; rfl
  · rw [timerSpec, if_neg hmax]
    simp only
    omega

/-- A disarmed timer suits sd-bus only if it has no deadline. -/
theorem timerFits_disarmed : TimerFits sd ⟨0, 0⟩ b ↔ sd.sd_bus_get_timeout b = UINT64_MAX := by
  constructor
  · intro h; exact h.disarmed.mp rfl
  · intro h
    exact ⟨by rw [h]; decide, ⟨fun _ => h, fun _ => rfl⟩, fun hne => absurd h hne⟩

theorem settimeoutWith_done {f : State β → Result β} (h : settimeoutWith sd f s = .done s') :
    (sd.sd_bus_get_timeout s.bus = 0 ∧ f s = .done s') ∨
      (sd.sd_bus_get_timeout s.bus ≠ 0 ∧ s'.bus = s.bus ∧ s'.conn.bus_stream = s.conn.bus_stream ∧
        s'.conn.bus = s.conn.bus ∧ ∃ tm, s'.conn.timer = some tm ∧ TimerFits sd tm.setting s.bus) := by
  rw [settimeoutWith] at h
  by_cases h0 : sd.sd_bus_get_timeout s.bus = 0
  · rw [if_pos h0] at h; exact Or.inl ⟨h0, h⟩
  · rw [if_neg h0] at h
    cases htm : s.conn.timer with
    | none => simp [htm] at h
    | some tm =>
      simp only [htm, Result.done.injEq] at h
      subst h
      exact Or.inr ⟨h0, rfl, rfl, rfl, _, rfl, timerFits_spec h0⟩

/-- Whatever sd-bus and its handlers did, `process_bus` comes back in sync. -/
theorem processBus_done : ∀ {n : ℕ} {s : State β}, processBus sd n s = .done s' →
    Suits sd s'.conn s'.bus
  | 0, _, h => by simp [processBus] at h
  | n + 1, s, h => by
    simp only [processBus] at h
    split at h
    · exact processBus_done h
    · split at h
      · simp at h
      · generalize ({ s with
          bus := (sd.sd_bus_process s.bus s.conn).bus
          conn := (sd.sd_bus_process s.bus s.conn).conn } : State β) = s₁ at h
        cases hev : setevents sd s₁ with
        | raised s₂ e => rw [hev] at h; simp [Result.bind] at h
        | crashed => rw [hev] at h; simp [Result.bind] at h
        | running => rw [hev] at h; simp [Result.bind] at h
        | done s₂ =>
          rw [hev] at h
          obtain ⟨st, hst, hfit, _⟩ := setevents_done hev
          rcases settimeoutWith_done h with ⟨_, h⟩ | ⟨_, hbus, hstream, _, tm, htm, htf⟩
          · exact processBus_done h
          · refine ⟨st, tm, hstream.trans hst, htm, ?_, ?_⟩
            · rw [hbus]; exact hfit
            · rw [hbus]; exact htf

/-! ### One step -/

theorem callSdBusFunc_eq (f : Func) (s : State β) : callSdBusFunc sd f s =
    if (sd.call f s.bus).1 < 0 then
      .raised { s with bus := (sd.call f s.bus).2 }
        ("failed to call " ++ f.name ++ ": " ++ sd.strerror (-(sd.call f s.bus).1))
    else .done { s with bus := (sd.call f s.bus).2 } := rfl

/-- A timer setting is right for one deadline only. -/
theorem TimerFits.deadline_eq {setting : ItimerSpec} {b' : β} (h : TimerFits sd setting b)
    (h' : TimerFits sd setting b') : sd.sd_bus_get_timeout b' = sd.sd_bus_get_timeout b := by
  by_cases hmax : sd.sd_bus_get_timeout b = UINT64_MAX
  · rw [hmax]
    exact h'.disarmed.mp (h.disarmed.mpr hmax)
  · have hmax' : sd.sd_bus_get_timeout b' ≠ UINT64_MAX := fun h₁ => hmax (h.disarmed.mp (h'.disarmed.mpr h₁))
    have h₁ := (h.deadline hmax).2
    have h₂ := (h'.deadline hmax').2
    refine BitVec.eq_of_toNat_eq ?_
    omega

/-- Where the event loop watches what sd-bus wants, it goes on to do so if sd-bus wants the same. -/
theorem suits_iff_stillWants {c : Conn} {b' : β} (h : Suits sd c b) : Suits sd c b' ↔ StillWants sd b b' := by
  obtain ⟨st, tm, hst, htm, hflags, htimer⟩ := h
  constructor
  · rintro ⟨st', tm', hst', htm', hflags', htimer'⟩
    obtain rfl := Option.some.inj (hst.symm.trans hst')
    obtain rfl := Option.some.inj (htm.symm.trans htm')
    exact ⟨hflags'.readable.symm.trans hflags.readable, hflags'.writable.symm.trans hflags.writable,
      htimer.deadline_eq htimer'⟩
  · intro hsame
    refine ⟨st, tm, hst, htm, ⟨hflags.readable.trans hsame.readable.symm,
      hflags.writable.trans hsame.writable.symm⟩, ?_⟩
    have hdeadline := hsame.deadline
    exact ⟨hdeadline ▸ htimer.pending, hdeadline ▸ htimer.disarmed, hdeadline ▸ htimer.deadline⟩

theorem InSync.unmoved_iff {b' : β} (hi : InSync sd s) (hb : s.conn.bus = true) :
    Unmoved sd s b' ↔ Suits sd s.conn b' := by
  rw [Unmoved]
  split
  · next hret => exact (suits_iff_stillWants (hi hret hb)).symm
  · exact Iff.rfl

/-- An operation that only makes calls is in sync afterwards if they left sd-bus wanting what it wanted
    before. -/
theorem silent_iff {rv : ℤ} {s₁ : State β} {e : String} (hi : InSync sd s)
    (h : (if rv < 0 then Result.raised s₁ e else .done { s with bus := b }).state? = some s') :
    InSync sd s' ↔ (0 ≤ rv → s.conn.bus = true → Unmoved sd s b) := by
  by_cases hrv : rv < 0
  · rw [if_pos hrv] at h
    obtain rfl := Option.some.inj h
    exact ⟨fun _ h0 => absurd hrv (Int.not_lt.mpr h0), fun _ hr => absurd hr (by simp)⟩
  · rw [if_neg hrv] at h
    obtain rfl := Option.some.inj h
    exact ⟨fun hi' _ hb => (hi.unmoved_iff hb).mpr (hi' rfl hb),
      fun hok _ hb => (hi.unmoved_iff hb).mp (hok (Int.not_lt.mp hrv) hb)⟩

theorem openBus_iff (h : (openBus sd s).state? = some s') :
    InSync sd s' ↔ StepOk sd s .openBus := by
  rw [openBus, callSdBusFunc_eq] at h
  by_cases hrv : (sd.call .sd_bus_open s.bus).1 < 0
  · rw [if_pos hrv] at h
    obtain rfl := Option.some.inj h
    exact ⟨fun _ h0 => absurd hrv (Int.not_lt.mpr h0), fun _ hr => absurd hr (by simp)⟩
  · rw [if_neg hrv] at h
    obtain rfl := Option.some.inj h
    -- the flags are those of `getevents`; the new timer is disarmed
    constructor
    · intro hi _
      obtain ⟨st, tm, _, htm, _, hfit⟩ := hi rfl rfl
      obtain rfl := Option.some.inj htm
      exact timerFits_disarmed.mp hfit
    · intro hok _ _
      have hf : FlagsFit sd (getevents sd (sd.call .sd_bus_open s.bus).2 |||
          JANET_STREAM_NOT_CLOSEABLE) (sd.call .sd_bus_open s.bus).2 := by
        rw [BitVec.or_comm]
        exact flagsFit_getevents (by decide) (by decide)
      exact ⟨_, _, rfl, rfl, hf, timerFits_disarmed.mpr (hok (Int.not_lt.mp hrv))⟩

theorem cfunCallAsync_iff {n : ℕ} (h : (cfunCallAsync sd n s).state? = some s') :
    InSync sd s' ↔ StepOk sd s (.callAsync n) := by
  rw [cfunCallAsync, callSdBusFunc_eq] at h
  by_cases hrv : (sd.call .sd_bus_call_async s.bus).1 < 0
  · rw [if_pos hrv] at h
    obtain rfl := Option.some.inj h
    exact ⟨fun _ h0 => absurd hrv (Int.not_lt.mpr h0), fun _ hr => absurd hr (by simp)⟩
  · rw [if_neg hrv] at h
    have h0 := Int.not_lt.mp hrv
    simp only [Result.bind, settimeout] at h
    generalize hb : after sd [.sd_bus_call_async, .sd_bus_slot_set_floating,
      .sd_bus_slot_set_destroy_callback] s.bus = b
    have hs : callIgnored sd .sd_bus_slot_set_destroy_callback
        (callIgnored sd .sd_bus_slot_set_floating
          { s with bus := (sd.call .sd_bus_call_async s.bus).2 }) = { s with bus := b } := by
      rw [← hb]; rfl
    rw [hs] at h
    simp only [StepOk, hb]
    cases hr : settimeoutWith sd (processBus sd n) { s with bus := b } with
    | crashed => rw [hr] at h; simp [Result.state?] at h
    | running => rw [hr] at h; simp [Result.state?] at h
    | raised s₁ e =>
      -- only `process_bus` raises, so the deadline was 0
      rw [hr] at h
      obtain rfl := Option.some.inj h
      have hzero : sd.sd_bus_get_timeout b = 0 := by
        by_contra hne
        rw [settimeoutWith] at hr
        simp only [hne, if_false] at hr
        split at hr <;> simp at hr
      exact ⟨fun _ _ _ => Or.inl hzero, fun _ hret => absurd hret (by simp)⟩
    | done s₁ =>
      rw [hr] at h
      obtain rfl := Option.some.inj h
      rcases settimeoutWith_done hr with ⟨hz, hdone⟩ | ⟨hne, hbus, hstream, hopen, tm, htm, hfit⟩
      · have hsuits : Suits sd s₁.conn s₁.bus := processBus_done hdone
        exact ⟨fun _ _ _ => Or.inl hz, fun _ _ _ => hsuits⟩
      · obtain rfl : s₁.bus = b := hbus
        have hstream' : s₁.conn.bus_stream = s.conn.bus_stream := hstream
        have hopen' : s₁.conn.bus = s.conn.bus := hopen
        constructor
        · intro hi _ hbus'
          obtain ⟨st, tm', hst, _, hflags, _⟩ := hi rfl (hopen'.trans hbus')
          exact Or.inr ⟨st, hstream'.symm.trans hst, hflags⟩
        · intro hok _ hbus'
          obtain ⟨st, hst, hflags⟩ := (hok h0 (hopen'.symm.trans hbus')).resolve_left hne
          exact ⟨st, tm, hstream'.trans hst, htm, hflags, hfit⟩

theorem cfunMatchAsync_eq (s : State β) : cfunMatchAsync sd s =
    if (sd.call .sd_bus_add_match_async s.bus).1 < 0 then
      .raised { s with bus := (sd.call .sd_bus_add_match_async s.bus).2 }
        ("failed to call " ++ Func.sd_bus_add_match_async.name ++ ": " ++
          sd.strerror (-(sd.call .sd_bus_add_match_async s.bus).1))
    else .done { s with bus := after sd [.sd_bus_add_match_async, .sd_bus_slot_set_floating,
      .sd_bus_slot_set_destroy_callback] s.bus } := by
  rw [cfunMatchAsync, callSdBusFunc_eq]
  split <;> rfl

theorem cfunGetUniqueName_iff (hi : InSync sd s) (h : (cfunGetUniqueName sd s).state? = some s') :
    InSync sd s' ↔ StepOk sd s .getUniqueName := by
  rw [cfunGetUniqueName, callSdBusFunc_eq] at h
  simp only [StepOk]
  rcases Int.lt_trichotomy (sd.call .sd_bus_is_open s.bus).1 0 with hlt | heq | hgt
  · rw [if_pos hlt] at h
    obtain rfl := Option.some.inj h
    refine ⟨fun _ _ => ⟨fun h0 => ?_, fun h0 => ?_⟩, fun _ hr => absurd hr (by simp)⟩
    · omega
    · omega
  · rw [if_neg (by omega)] at h
    simp only [Result.bind, heq, if_true] at h
    obtain rfl := Option.some.inj h
    constructor
    · intro hi' hb
      exact ⟨fun _ => (hi.unmoved_iff hb).mpr (hi' rfl hb), fun h0 => absurd h0 (by omega)⟩
    · intro hok _ hb
      exact (hi.unmoved_iff hb).mp ((hok hb).1 heq)
  · rw [if_neg (by omega)] at h
    have hne : (sd.call .sd_bus_is_open s.bus).1 ≠ 0 := by omega
    simp only [Result.bind, hne, if_false] at h
    have hsil : InSync sd s' ↔ (0 ≤ (sd.call .sd_bus_get_unique_name
        (after sd [.sd_bus_is_open] s.bus)).1 → s.conn.bus = true →
        Unmoved sd s (after sd [.sd_bus_is_open, .sd_bus_get_unique_name] s.bus)) :=
      silent_iff hi h
    rw [hsil]
    constructor
    · intro hi' hb
      exact ⟨fun h0 => absurd h0 hne, fun _ h0 => hi' h0 hb⟩
    · intro hok h0 hb
      exact (hok hb).2 hgt h0

theorem hangup_eq : ∀ (k : ℕ) (s : State β), hangup sd k s =
    { s with
      conn := { s.conn with
        bus_stream := s.conn.bus_stream.map fun st => { st with listening := false } }
      bus := after sd (List.replicate k .sd_bus_slot_unref) s.bus }
  | 0, _ => rfl
  | k + 1, s => by rw [hangup, hangup_eq k]; rfl

theorem hangup_iff {k : ℕ} (hi : InSync sd s) (h : (Result.done (hangup sd k s)).state? = some s') :
    InSync sd s' ↔ StepOk sd s (.hangup k) := by
  obtain rfl := Option.some.inj h
  rw [hangup_eq]
  -- ending the listener leaves the flags of the stream as they are
  have hsame : Suits sd { s.conn with
      bus_stream := s.conn.bus_stream.map fun st => { st with listening := false } }
      (after sd (List.replicate k .sd_bus_slot_unref) s.bus) ↔
        Suits sd s.conn (after sd (List.replicate k .sd_bus_slot_unref) s.bus) := by
    constructor
    · rintro ⟨st, tm, hst, htm, hf, ht⟩
      obtain ⟨st', hst', rfl⟩ := Option.map_eq_some_iff.mp hst
      exact ⟨st', tm, hst', htm, hf, ht⟩
    · rintro ⟨st, tm, hst, htm, hf, ht⟩
      exact ⟨{ st with listening := false }, tm, by simp [hst], htm, hf, ht⟩
  exact ⟨fun hi' hb => (hi.unmoved_iff hb).mpr (hsame.mp (hi' rfl hb)),
    fun hok _ hb => hsame.mpr ((hi.unmoved_iff hb).mp (hok hb))⟩

theorem processBus_inSync {n : ℕ} (h : (processBus sd n s).state? = some s') : InSync sd s' := by
  cases hr : processBus sd n s with
  | crashed => rw [hr] at h; simp [Result.state?] at h
  | running => rw [hr] at h; simp [Result.state?] at h
  | raised s₁ e =>
    rw [hr] at h
    obtain rfl := Option.some.inj h
    exact fun hret => absurd hret (by simp)
  | done s₁ =>
    rw [hr] at h
    obtain rfl := Option.some.inj h
    have hsuits : Suits sd s₁.conn s₁.bus := processBus_done hr
    exact fun _ _ => hsuits

/-- After a step the event loop is in sync exactly when the step met its condition. -/
theorem step_iff {a : BusStep} (hi : InSync sd s) (h : step sd s a = some s') : InSync sd s' ↔ StepOk sd s a := by
  simp only [step, Option.ite_none_right_eq_some] at h
  obtain ⟨_, h⟩ := h
  cases a with
  | openBus => exact openBus_iff h
  | callAsync n => exact cfunCallAsync_iff h
  | matchAsync =>
    rw [run, cfunMatchAsync_eq] at h
    exact silent_iff hi h
  | messageSend => exact silent_iff hi h
  | listNames => exact silent_iff hi h
  | getUniqueName => exact cfunGetUniqueName_iff hi h
  | cancel =>
    obtain rfl := Option.some.inj h
    exact ⟨fun hi' hb => (hi.unmoved_iff hb).mpr (hi' rfl hb), fun hok _ hb => (hi.unmoved_iff hb).mp (hok hb)⟩
  | exportIface => exact silent_iff hi h
  | busEvent n => exact ⟨fun _ => trivial, fun _ => processBus_inSync h⟩
  | timerEvent n => exact ⟨fun _ => trivial, fun _ => processBus_inSync h⟩
  | hangup k => exact hangup_iff hi h
  | closeBus =>
    obtain rfl := Option.some.inj h
    exact ⟨fun _ => trivial, fun _ _ hb => absurd hb (by simp [cfunCloseBus])⟩

/-! ### Runs -/

/-- Along a run the event loop watches what sd-bus wants exactly when every step meets its
    condition. -/
theorem in_sync_iff (sd : SdBus β) (b : β) (steps : List BusStep) :
    Along (step sd) (InSync sd) (fresh b) steps ↔ Meets (step sd) (StepOk sd) (fresh b) steps :=
  along_iff_meets (fun _ h => h) (fun _ _ _ hi hok hs => (step_iff hi hs).mpr hok)
    (fun _ _ _ hi hno hs => fun hi' => hno ((step_iff hi hs).mp hi')) fun hret => absurd hret (by simp [fresh])

/-- An sd-bus that wants to write once a message has been queued, and has no deadlines. -/
def writingBus : SdBus Bool where
  sd_bus_get_events queued := if queued then POLLIN ||| POLLOUT else POLLIN
  sd_bus_get_timeout _ := UINT64_MAX
  sd_bus_process _ c := { rv := 0, bus := false, conn := c }
  call f queued := (0, queued || f = .sd_bus_message_send)
  strerror _ := ""

/-- After `message-send` nobody watches for the socket to become writable. -/
theorem messageSend_stalls : ¬ ∀ (β : Type) (sd : SdBus β) (b : β) (steps : List BusStep),
    Along (step sd) (InSync sd) (fresh b) steps := by
  intro h
  have hrun : (exec (step writingBus) (fresh false) [.openBus, .messageSend]).map
      (fun s => (s.returned, s.conn.bus, s.conn.bus_stream.map (·.flags), s.bus)) =
      some (true, true, some (JANET_STREAM_READABLE ||| JANET_STREAM_NOT_CLOSEABLE), true) := by
    decide +kernel
  obtain ⟨s, hs, hview⟩ := Option.map_eq_some_iff.mp hrun
  simp only [Prod.mk.injEq] at hview
  obtain ⟨hret, hbus, hst, hb⟩ := hview
  obtain ⟨st, _, hst', _, hfit, _⟩ := (h Bool writingBus false _).last hs hret hbus
  rw [hst'] at hst
  have hw := hfit.writable
  have hflags : st.flags = JANET_STREAM_READABLE ||| JANET_STREAM_NOT_CLOSEABLE :=
    Option.some.inj hst
  rw [hflags, hb] at hw
  revert hw
  decide

end JanetSdbus.Events
