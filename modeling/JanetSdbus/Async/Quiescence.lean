import JanetSdbus.Async.Reentry

/-! `process_bus` reaches quiescence.

    If sd-bus has finitely much work, each positive answer of `sd_bus_process` does some of it, and a
    deadline of 0 announces a positive answer, then `process_bus` ends: between two positive answers
    it makes at most one call that finds nothing. It leaves the stream and the timer as sd-bus wants
    them (`processBus_done`), and everything else of the connection alone. -/

namespace JanetSdbus.Quiescence
open Async Events Reentry

variable {β : Type} (sd : SdBus β)

/-- What is assumed of sd-bus; `work` counts what is left to do, seen or not. -/
structure Drains (work : β → ℕ) : Prop where
  consumes : ∀ b c, 0 < (sd.sd_bus_process b c).rv → work (sd.sd_bus_process b c).bus < work b
  keeps : ∀ b c, work (sd.sd_bus_process b c).bus ≤ work b
  due : ∀ b c, sd.sd_bus_get_timeout b = 0 → 0 < (sd.sd_bus_process b c).rv
  succeeds : ∀ b c, 0 ≤ (sd.sd_bus_process b c).rv
  untouched : ∀ b c, (sd.sd_bus_process b c).conn = c

/-- The flags that the event loop does not poll for. -/
def otherFlags : BitVec 32 := ~~~ (JANET_STREAM_READABLE ||| JANET_STREAM_WRITABLE)

/-- Nothing but the two flags of the stream and the setting of the timer may differ. -/
structure Kept (c c' : Conn) : Prop where
  bus : c'.bus = c.bus
  queue : c'.queue = c.queue
  stream : ∃ st st', c.bus_stream = some st ∧ c'.bus_stream = some st' ∧ st'.listening = st.listening ∧
    st'.flags &&& otherFlags = st.flags &&& otherFlags
  timer : ∃ tm tm', c.timer = some tm ∧ c'.timer = some tm' ∧ tm'.listening = tm.listening

/-- `s'` is where `process_bus`, entered in `s`, comes to rest. -/
structure Quiet (s s' : State β) : Prop where
  last : ∃ s₁, Passes sd s s₁ ∧ (sd.sd_bus_process s₁.bus s₁.conn).rv = 0 ∧
    s'.bus = (sd.sd_bus_process s₁.bus s₁.conn).bus
  kept : Kept s.conn s'.conn
  suits : Suits sd s'.conn s'.bus

/-- After one call of `sd_bus_process`. -/
def processed (s : State β) : State β :=
  { s with bus := (sd.sd_bus_process s.bus s.conn).bus, conn := (sd.sd_bus_process s.bus s.conn).conn }

variable {sd} {s s₁ s' : State β} {n : ℕ}

theorem Kept.trans {c₁ c₂ c₃ : Conn} (h₁ : Kept c₁ c₂) (h₂ : Kept c₂ c₃) : Kept c₁ c₃ := by
  obtain ⟨st₁, st₂, hst₁, hst₂, hl, hf⟩ := h₁.stream
  obtain ⟨_, st₃, hst, hst₃, hl', hf'⟩ := h₂.stream
  obtain rfl := Option.some.inj (hst₂.symm.trans hst)
  obtain ⟨tm₁, tm₂, htm₁, htm₂, ht⟩ := h₁.timer
  obtain ⟨_, tm₃, htm, htm₃, ht'⟩ := h₂.timer
  obtain rfl := Option.some.inj (htm₂.symm.trans htm)
  exact ⟨h₂.bus.trans h₁.bus, h₂.queue.trans h₁.queue,
    ⟨st₁, st₃, hst₁, hst₃, hl'.trans hl, hf'.trans hf⟩, ⟨tm₁, tm₃, htm₁, htm₃, ht'.trans ht⟩⟩

theorem Open.kept {c : Conn} (h : Open c) : Kept c c := by
  obtain ⟨st, hst⟩ := Option.isSome_iff_exists.mp h.stream
  obtain ⟨tm, htm⟩ := Option.isSome_iff_exists.mp h.timer
  exact ⟨rfl, rfl, ⟨st, st, hst, hst, rfl, rfl⟩, ⟨tm, tm, htm, htm, rfl⟩⟩

theorem Kept.open {c c' : Conn} (h : Kept c c') (hc : Open c) : Open c' := by
  obtain ⟨_, _, _, hst, _⟩ := h.stream
  obtain ⟨_, _, _, htm, _⟩ := h.timer
  exact ⟨h.bus.trans hc.bus, by rw [hst]; rfl, by rw [htm]; rfl⟩

theorem Passes.trans (h₁ : Passes sd s s₁) (h₂ : Passes sd s₁ s') : Passes sd s s' := by
  induction h₂ with
  | start => exact h₁
  | again s₂ _ hrv ih => exact .again s₂ ih hrv
  | expired s₂ s₃ _ hrv hset htimeout ih => exact .expired s₂ s₃ ih hrv hset htimeout

/-! ### The steps of the loop -/

theorem processBus_positive (hrv : 0 < (sd.sd_bus_process s.bus s.conn).rv) :
    processBus sd (n + 1) s = processBus sd n (processed sd s) := by
  simp only [processBus, hrv, if_true]
  rfl

theorem processBus_zero (hrv : (sd.sd_bus_process s.bus s.conn).rv = 0)
    (hset : setevents sd (processed sd s) = .done s₁) :
    processBus sd (n + 1) s = settimeout sd n s₁ := by
  have hdef : processBus sd (n + 1) s =
      if 0 < (sd.sd_bus_process s.bus s.conn).rv then processBus sd n (processed sd s)
      else if (sd.sd_bus_process s.bus s.conn).rv < 0 then .raised (processed sd s)
        ("failed to call sd_bus_process: " ++ sd.strerror (-(sd.sd_bus_process s.bus s.conn).rv))
      else (setevents sd (processed sd s)).bind fun s => settimeoutWith sd (processBus sd n) s := rfl
  rw [hdef, hrv, if_neg (by decide), if_neg (by decide), hset]
  rfl

variable (sd) in
theorem setevents_kept (h : Open s.conn) : ∃ s₁, setevents sd s = .done s₁ ∧ s₁.bus = s.bus ∧
    Kept s.conn s₁.conn := by
  obtain ⟨st, hst⟩ := Option.isSome_iff_exists.mp h.stream
  obtain ⟨tm, htm⟩ := Option.isSome_iff_exists.mp h.timer
  rw [setevents, hst]
  refine ⟨_, rfl, rfl, rfl, rfl, ⟨st, _, hst, rfl, rfl, ?_⟩, ⟨tm, tm, htm, htm, rfl⟩⟩
  -- the flags put in are none of the others
  have hnew : getevents sd s.bus &&& otherFlags = 0 := by
    rw [getevents]
    split <;> split <;> decide
  simp only
  rw [BitVec.or_comm, and_or_masked hnew, BitVec.and_assoc, ← otherFlags, BitVec.and_self]

theorem settimeout_kept (h : Open s.conn) (hpending : sd.sd_bus_get_timeout s.bus ≠ 0) :
    ∃ s₁, (∀ n, settimeout sd n s = .done s₁) ∧ s₁.bus = s.bus ∧ Kept s.conn s₁.conn := by
  obtain ⟨st, hst⟩ := Option.isSome_iff_exists.mp h.stream
  obtain ⟨tm, htm⟩ := Option.isSome_iff_exists.mp h.timer
  refine ⟨{ s with conn := { s.conn with
    timer := some { tm with setting := timerSpec (sd.sd_bus_get_timeout s.bus) } } }, fun n => ?_, rfl, rfl, rfl,
    ⟨st, st, hst, hst, rfl, rfl⟩, ⟨tm, _, htm, rfl, rfl⟩⟩
  rw [settimeout, settimeoutWith, if_neg hpending, htm]

/-! ### Termination -/

section drains
variable {work : β → ℕ}

theorem processed_open (h : Drains sd work) (hopen : Open s.conn) : Open (processed sd s).conn := by
  have hconn : (processed sd s).conn = s.conn := h.untouched s.bus s.conn
  rw [hconn]
  exact hopen

theorem processed_kept (h : Drains sd work) (hopen : Open s.conn) : Kept s.conn (processed sd s).conn := by
  have hconn : (processed sd s).conn = s.conn := h.untouched s.bus s.conn
  rw [hconn]
  exact Open.kept hopen

/-- `process_bus` comes to rest, by induction on the work that is left. A call that finds nothing
    does none of it, but then the deadline has not passed or the next call finds something. -/
theorem drains_rests (h : Drains sd work) (hopen : Open s.conn) : ∃ s',
    (∃ n, ∀ m, n ≤ m → processBus sd m s = .done s') ∧ Kept s.conn s'.conn ∧
      ∃ s₁, Passes sd s s₁ ∧ (sd.sd_bus_process s₁.bus s₁.conn).rv = 0 ∧
        s'.bus = (sd.sd_bus_process s₁.bus s₁.conn).bus := by
  induction hw : work s.bus using Nat.strongRecOn generalizing s with
  | ind w ih =>
    subst hw
    rcases Int.lt_or_eq_of_le (h.succeeds s.bus s.conn) with hrv | hrv
    · obtain ⟨s', ⟨n, hn⟩, hkept, s₁, hp, hlast⟩ := ih _ (h.consumes s.bus s.conn hrv)
        (s := processed sd s) (processed_open h hopen) rfl
      refine ⟨s', ⟨n + 1, fun m hm => ?_⟩, (processed_kept h hopen).trans hkept, s₁,
        Passes.trans (.again s .start hrv) hp, hlast⟩
      obtain ⟨k, rfl⟩ : ∃ k, m = k + 1 := ⟨m - 1, by omega⟩
      rw [processBus_positive hrv]
      exact hn k (by omega)
    · obtain ⟨s₂, hset, hbus, hkept₂⟩ := setevents_kept sd (processed_open h hopen)
      have hopen₂ := hkept₂.open (processed_open h hopen)
      have hkept := (processed_kept h hopen).trans hkept₂
      by_cases hdue : sd.sd_bus_get_timeout s₂.bus = 0
      · -- the call after this one finds something
        have hrv₂ := h.due s₂.bus s₂.conn hdue
        have hle := h.keeps s.bus s.conn
        have hlt := h.consumes s₂.bus s₂.conn hrv₂
        rw [hbus] at hlt
        obtain ⟨s', ⟨n, hn⟩, hkept', s₁, hp, hlast⟩ := ih _ (Nat.lt_of_lt_of_le hlt hle)
          (s := processed sd s₂) (processed_open h hopen₂) (by rw [← hbus]; rfl)
        have hp₂ : Passes sd s s₂ := .expired s s₂ .start hrv.symm hset hdue
        refine ⟨s', ⟨n + 2, fun m hm => ?_⟩, hkept.trans ((processed_kept h hopen₂).trans hkept'), s₁,
          Passes.trans (.again s₂ hp₂ hrv₂) hp, hlast⟩
        obtain ⟨k, rfl⟩ : ∃ k, m = k + 2 := ⟨m - 2, by omega⟩
        rw [processBus_zero hrv.symm hset, settimeout, settimeoutWith, if_pos hdue, processBus_positive hrv₂]
        exact hn k (by omega)
      · obtain ⟨s', hdone, hbus', hkept'⟩ := settimeout_kept hopen₂ hdue
        refine ⟨s', ⟨1, fun m hm => ?_⟩, hkept.trans hkept', s, .start, hrv.symm, ?_⟩
        · obtain ⟨k, rfl⟩ : ∃ k, m = k + 1 := ⟨m - 1, by omega⟩
          rw [processBus_zero hrv.symm hset, hdone]
        · rw [hbus', hbus]
          rfl

end drains

/-- From every state of an open connection `process_bus` comes back, and quiet; and so `settimeout`
    comes back, whether it enters `process_bus` or not. -/
theorem processBus_quiescent (sd : SdBus β) (work : β → ℕ) (h : Drains sd work) (s : State β)
    (hopen : Open s.conn) :
    (∃ s', (∃ n, ∀ m, n ≤ m → processBus sd m s = .done s') ∧ Quiet sd s s') ∧
    ∃ s', ∃ n, ∀ m, n ≤ m → settimeout sd m s = .done s' := by
  obtain ⟨s', ⟨n, hn⟩, hkept, hlast⟩ := drains_rests h hopen
  refine ⟨⟨s', ⟨n, hn⟩, hlast, hkept, processBus_done (hn n (Nat.le_refl n))⟩, ?_⟩
  by_cases hdue : sd.sd_bus_get_timeout s.bus = 0
  · refine ⟨s', n, fun m hm => ?_⟩
    rw [settimeout, settimeoutWith, if_pos hdue]
    exact hn m hm
  · obtain ⟨s₁, hdone, _⟩ := settimeout_kept hopen hdue
    exact ⟨s₁, 0, fun m _ => hdone m⟩

/-- sd-bus with two messages to read, of which the second is seen only when the first call has found
    nothing after the first; then it has a deadline. -/
def twoItems : SdBus ℕ where
  sd_bus_get_events _ := POLLIN
  sd_bus_get_timeout b := if b = 1 then 0 else 5000000
  sd_bus_process b c :=
    if b = 3 then ⟨1, 2, c⟩ else if b = 2 then ⟨0, 1, c⟩ else if b = 1 then ⟨1, 0, c⟩ else ⟨0, b, c⟩
  call _ b := (0, b)
  strerror _ := ""

theorem twoItems_drains : Drains twoItems id := by
  have hanswer : ∀ b c, twoItems.sd_bus_process b c =
      if b = 3 then ⟨1, 2, c⟩ else if b = 2 then ⟨0, 1, c⟩ else if b = 1 then ⟨1, 0, c⟩ else ⟨0, b, c⟩ :=
    fun _ _ => rfl
  constructor
  · intro b c h
    rw [hanswer] at h ⊢
    split at h
    · next hb => simp [hb]
    · split at h
      · simp at h
      · split at h
        · next hb => simp [hb]
        · simp at h
  · intro b c
    rw [hanswer]
    split
    · next hb => simp [hb]
    · split
      · next hb => simp [hb]
      · split <;> simp
  · intro b c h
    have hb : b = 1 := by
      by_contra hb
      have hdeadline : twoItems.sd_bus_get_timeout b = 5000000 := if_neg hb
      rw [hdeadline] at h
      exact absurd h (by decide)
    rw [hb]
    exact Int.one_pos
  · intro b c
    rw [hanswer]
    split
    · simp
    · split
      · simp
      · split <;> simp
  · intro b c
    rw [hanswer]
    split
    · rfl
    · split
      · rfl
      · split <;> rfl

/-- Both messages are read, and the timer is armed. -/
theorem processBus_quiescent_two : ∃ s', (∃ n, ∀ m, n ≤ m →
    processBus twoItems m ⟨(atRest 3).conn, 3, true⟩ = .done s') ∧ Quiet twoItems ⟨(atRest 3).conn, 3, true⟩ s' :=
  (processBus_quiescent twoItems id twoItems_drains ⟨(atRest 3).conn, 3, true⟩ ⟨rfl, rfl, rfl⟩).1

end JanetSdbus.Quiescence
