import JanetSdbus.Delivery.Handler
import JanetSdbus.Message.RoundTrip
import JanetSdbus.Schemes.Objects

/-! Several receivers of one message.

    A message goes to the call it answers and to every match that fits it, one callback after the
    other. The receivers then read, rewind and dump what they took from their channels, in any order.
    A copy belongs to one receiver, but a signal is handed to all of them with its one cursor:
    `undisturbed_iff` says when that shows. -/

namespace JanetSdbus.Delivery
open DBus Message Schemes.Objects
open Async (MessageType Kind)

/-! ### Operations of a receiver -/

inductive Op where
  | read (what : What)
  | rewind
  | dump (closed : Bool)

/-- What a receiver gets: the value returned, or the text of the dump, which is made of the message. -/
inductive Output where
  | value (v : Janet)
  | dump (type : MessageType) (replyCookie : Option ℕ) (headers : Headers) (body : List Item)

variable (rt : Runtime) (tb : Tables) (dup : ℤ → Except String ℤ)

def cfunMessageRewind : Receiving Output := do
  withCursor (Message.rewind rt)
  pure (.value .nil)

/-- `sd_bus_message_dump` reads the message from its start to its end. -/
def sdBusMessageDump : Receiving Output := do
  let m ← get
  set { m with reader := { m.reader with stack := [[]] } }
  pure (.dump m.type m.replyCookie m.headers m.reader.body)

/-- `closed`: the file is closed. -/
def cfunMessageDump (closed : Bool) : Receiving Output :=
  if closed then throw (.panic "Cannot dump message to a closed file")
  else do
    let text ← sdBusMessageDump
    withCursor (Message.rewind rt)
    pure text

def perform : Op → Receiving Output
  | .read what => do
    let v ← withCursor (cfunMessageRead rt tb dup what)
    pure (.value v)
  | .rewind => cfunMessageRewind rt
  | .dump closed => cfunMessageDump rt closed

/-- What an operation gives, and the message after it. -/
def performed (o : Op) (m : SdBusMessage) : Except Stop Output × SdBusMessage :=
  match perform rt tb dup o m with
  | .ok out m' => (.ok out, m')
  | .error e m' => (.error e, m')

/-! ### Dispatch -/

/-- A message as sd-bus received it. -/
structure Incoming where
  type : MessageType
  replyCookie : Option ℕ
  headers : Headers
  body : List Item
  typed : ∃ ts, Item.HaveTys ts body

def Incoming.message (x : Incoming) : SdBusMessage := ⟨x.type, x.replyCookie, x.headers, sealMessage x.body⟩

/-- Who gets a message: the call that it answers, if it answers one, and the matches. -/
structure Dispatch where
  incoming : Incoming
  answers : Bool
  matching : ℕ
  isReply : answers = true → incoming.type = .methodReturn ∨ ∃ e, incoming.type = .methodError e

def Dispatch.kinds (d : Dispatch) : List Kind :=
  (if d.answers then [.Call] else []) ++ List.replicate d.matching .Match

/-- The callbacks, one after the other. -/
def runHandlers : List Kind → Receiving (List Pushed)
  | [] => pure []
  | k :: ks => do
    let d ← messageHandler rt k
    let ds ← runHandlers ks
    pure (d :: ds)

/-- The object of receiver `i`: the received message is number 0, a copy has a number of its own. -/
def seat (i : ℕ) : Pushed → Option ℕ
  | .ref => some 0
  | .copy _ => some (i + 1)
  | .error _ => none
  | .nothing => none

def holds (ds : List Pushed) (i : ℕ) : Option ℕ := ds[i]?.bind (seat i)

def objects (ds : List Pushed) (m : SdBusMessage) : ℕ → SdBusMessage
  | 0 => m
  | i + 1 => (ds[i]?.bind (Pushed.object m)).getD m

/-- What receiver `i` gets in a schedule of the receivers of these kinds. -/
def results (kinds : List Kind) (m : SdBusMessage) (schedule : List (ℕ × Op)) (i : ℕ) :
    List (Except Stop Output) :=
  match runHandlers rt kinds m with
  | .ok ds m' => entriesOf i (run (performed rt tb dup) (holds ds) (objects ds m') schedule)
  | .error _ _ => []

/-- Every receiver gets in every schedule what it would get if it were the only receiver. -/
def Dispatch.Undisturbed (d : Dispatch) : Prop :=
  ∀ (rt : Runtime) (tb : Tables) (dup : ℤ → Except String ℤ) (schedule : List (ℕ × Op)) (i : ℕ) (k : Kind),
    d.kinds[i]? = some k → results rt tb dup d.kinds d.incoming.message schedule i =
      results rt tb dup [k] d.incoming.message ((entriesOf i schedule).map fun o => (0, o)) 0

/-! ### One receiver -/

variable {rt tb dup} {x : Incoming} {kinds : List Kind} {i : ℕ} {k : Kind}

/-- No callback moves the cursor of a message that has just come in. -/
theorem runHandlers_ok (x : Incoming) (kinds : List Kind) :
    runHandlers rt kinds x.message = .ok (kinds.map fun k => pushed k x.message) x.message := by
  induction kinds with
  | nil => rfl
  | cons k ks ih =>
    have hstay : (if copies k x.message then x.message.rewound else x.message) = x.message := ite_self _
    have hhandler : messageHandler rt k x.message = .ok (pushed k x.message) x.message :=
      (messageHandler_ok k rfl).trans (by rw [hstay])
    simp only [runHandlers, bind, EStateM.bind, hhandler, ih]
    rfl

theorem holds_map (hk : kinds[i]? = some k) :
    holds (kinds.map fun k => pushed k x.message) i = seat i (pushed k x.message) := by
  rw [holds, List.getElem?_map, hk]
  rfl

/-- What a receiver gets with its object to itself. -/
def seen (rt : Runtime) (tb : Tables) (dup : ℤ → Except String ℤ) (x : Incoming) (k : Kind) (os : List Op) :
    List (Except Stop Output) :=
  match (pushed k x.message).object x.message with
  | some obj => solo (performed rt tb dup) obj os
  | none => []

theorem read_empty (what : What) :
    cfunMessageRead rt tb dup what (sealMessage []) = .ok .nil (sealMessage []) ∨
      ∃ e, cfunMessageRead rt tb dup what (sealMessage []) = .error e (sealMessage []) := by
  cases what with
  | all => exact .inl rfl
  | rest => exact .inl rfl
  | keyword k => exact .inr ⟨_, rfl⟩
  | count n =>
    by_cases hn : n < 0
    · refine .inr ⟨.panic "expected positive integer argument", ?_⟩
      show (if n < 0 then readPanic "expected positive integer argument" else _) (sealMessage []) = _
      rw [if_pos hn]
      rfl
    · left
      rw [cfunMessageRead]
      refine read_bind (s := sealMessage []) rfl ?_
      simp only
      rw [if_neg hn]
      cases n.toNat with
      | zero => rfl
      | succ k => rfl

/-- Nothing in an empty message can be read, so nothing moves its cursor. -/
theorem performed_empty {m : SdBusMessage} (hm : m.reader = sealMessage []) (o : Op) :
    (performed rt tb dup o m).2 = m := by
  obtain ⟨type, replyCookie, headers, reader⟩ := m
  obtain rfl : reader = sealMessage [] := hm
  cases o with
  | read what =>
    have hread : _ ∨ _ := @read_empty rt tb dup what
    simp only [performed, perform, withCursor, bind, EStateM.bind]
    rcases hread with hread | ⟨e, hread⟩
    · rw [hread]
      rfl
    · rw [hread]
  | rewind => rfl
  | dump closed => cases closed <;> rfl

/-- What a receiver gets, if it shares its object with nobody or there is nothing to read in it. -/
theorem results_own (hk : kinds[i]? = some k) (schedule : List (ℕ × Op))
    (hown : pushed k x.message = .ref →
      x.body = [] ∨ ∀ j k', j ≠ i → kinds[j]? = some k' → pushed k' x.message ≠ .ref) :
    results rt tb dup kinds x.message schedule i = seen rt tb dup x k (entriesOf i schedule) := by
  have hseat := holds_map (x := x) hk
  have hds : (kinds.map fun k => pushed k x.message)[i]? = some (pushed k x.message) := by
    rw [List.getElem?_map, hk]
    rfl
  simp only [results, runHandlers_ok, seen]
  generalize hds' : kinds.map (fun k => pushed k x.message) = ds at hseat hds ⊢
  -- what another receiver holds
  have hother : ∀ j n, holds ds j = some n → ∃ k', kinds[j]? = some k' ∧ seat j (pushed k' x.message) = some n := by
    intro j n hj
    rw [← hds', holds, List.getElem?_map] at hj
    cases hk' : kinds[j]? with
    | none => simp [hk'] at hj
    | some k' => exact ⟨k', rfl, by simpa [hk'] using hj⟩
  cases hp : pushed k x.message with
  | ref =>
    rw [hp] at hseat
    simp only [Pushed.object]
    rcases hown hp with hempty | halone
    · have hreader : x.message.reader = sealMessage [] := by rw [Incoming.message, hempty]
      exact results_fixed hseat (performed_empty hreader) _ rfl schedule
    · refine results_run hseat (fun j hj hholds => ?_) _ schedule
      obtain ⟨k', hk', hzero⟩ := hother j 0 hholds
      have hno := halone j k' hj hk'
      cases hp' : pushed k' x.message with
      | ref => exact hno hp'
      | copy new => simp [hp', seat] at hzero
      | error text => simp [hp', seat] at hzero
      | nothing => simp [hp', seat] at hzero
  | copy new =>
    rw [hp] at hseat hds
    simp only [Pushed.object]
    have hobj : objects ds x.message (i + 1) = new := by simp [objects, hds, Pushed.object]
    rw [results_run hseat ?_ _ schedule, hobj]
    intro j hj hholds
    obtain ⟨k', _, hnum⟩ := hother j (i + 1) hholds
    cases hp' : pushed k' x.message with
    | ref => simp [hp', seat] at hnum
    | copy new' => exact hj (by simpa [hp', seat] using hnum)
    | error text => simp [hp', seat] at hnum
    | nothing => simp [hp', seat] at hnum
  | error text =>
    rw [hp] at hseat
    exact results_none hseat _ schedule
  | nothing =>
    rw [hp] at hseat
    exact results_none hseat _ schedule

/-- The only receiver. -/
theorem results_alone (k : Kind) (os : List Op) :
    results rt tb dup [k] x.message (os.map fun o => (0, o)) 0 = seen rt tb dup x k os := by
  rw [results_own (k := k) rfl _ fun _ => .inr fun j k' hj hk' => ?_, entriesOf_map]
  have hnone : [k][j]? = none := List.getElem?_eq_none (Nat.one_le_iff_ne_zero.mpr hj)
  rw [hnone] at hk'
  simp at hk'

/-! ### Several receivers -/

theorem kinds_call {d : Dispatch} (hi : d.kinds[i]? = some .Call) : d.answers = true ∧ i = 0 := by
  rw [Dispatch.kinds] at hi
  cases ha : d.answers with
  | false =>
    rw [ha, if_neg (by simp), List.nil_append] at hi
    have hmem := List.mem_of_getElem? hi
    simp at hmem
  | true =>
    rw [ha, if_pos rfl] at hi
    refine ⟨rfl, ?_⟩
    cases i with
    | zero => rfl
    | succ j =>
      have hmem : Kind.Call ∈ List.replicate d.matching .Match := List.mem_of_getElem? (i := j) hi
      simp at hmem

/-- A signal answers no call. -/
theorem signal_answers {d : Dispatch} (hsignal : d.incoming.type = .signal) : d.answers = false := by
  by_contra hyes
  rw [Bool.not_eq_false] at hyes
  rcases d.isReply hyes with h | ⟨e, h⟩
  · rw [hsignal] at h; simp at h
  · rw [hsignal] at h; simp at h

/-- Two receivers hold the received message itself only if it is a signal. -/
theorem kinds_shared {d : Dispatch} {j : ℕ} {k' : Kind} (hi : d.kinds[i]? = some k)
    (hj : d.kinds[j]? = some k') (hij : j ≠ i) (hk : pushed k d.incoming.message = .ref)
    (hk' : pushed k' d.incoming.message = .ref) : d.incoming.type = .signal ∧ 2 ≤ d.matching := by
  have hcall : d.incoming.type ≠ .signal → ∀ {n k}, d.kinds[n]? = some k →
      pushed k d.incoming.message = .ref → n = 0 := by
    intro hno n k hn hp
    have htype : d.incoming.message.type = d.incoming.type := rfl
    rw [pushed, htype] at hp
    cases ht : d.incoming.type with
    | signal => exact absurd ht hno
    | methodReturn =>
      cases k with
      | Call => exact (kinds_call hn).2
      | Match => simp [ht] at hp
    | methodCall =>
      cases k with
      | Call => exact (kinds_call hn).2
      | Match => simp [ht] at hp
    | methodError error => simp [ht] at hp
    | other => simp [ht] at hp
  have hsignal : d.incoming.type = .signal := by
    by_contra hno
    exact hij ((hcall hno hj hk').trans (hcall hno hi hk).symm)
  refine ⟨hsignal, ?_⟩
  have hanswers := signal_answers hsignal
  have hlen : d.kinds.length = d.matching := by simp [Dispatch.kinds, hanswers]
  have hi' := (List.getElem?_eq_some_iff.mp hi).1
  have hj' := (List.getElem?_eq_some_iff.mp hj).1
  omega

theorem kinds_two {d : Dispatch} (hsignal : d.incoming.type = .signal) (hmatching : 2 ≤ d.matching) :
    d.kinds[0]? = some .Match ∧ d.kinds[1]? = some .Match := by
  have hanswers := signal_answers hsignal
  have hkinds : d.kinds = List.replicate d.matching .Match := by
    rw [Dispatch.kinds, hanswers]
    rfl
  rw [hkinds]
  exact ⟨List.getElem?_replicate_of_lt (by omega), List.getElem?_replicate_of_lt (by omega)⟩

theorem performed_read {what : What} {m : SdBusMessage} {v : Janet} {r : Reader}
    (h : cfunMessageRead rt tb dup what m.reader = .ok v r) :
    performed rt tb dup (.read what) m = (.ok (.value v), { m with reader := r }) := by
  simp only [performed, perform, withCursor, bind, EStateM.bind, h]
  rfl

/-- One receiver reads a whole signal, and the other finds nothing to read. -/
theorem signal_disturbed {d : Dispatch} (hsignal : d.incoming.type = .signal) (hmatching : 2 ≤ d.matching)
    (hbody : d.incoming.body ≠ []) : ¬ d.Undisturbed := by
  intro h
  obtain ⟨h0, h1⟩ := kinds_two hsignal hmatching
  obtain ⟨ts, hty⟩ := d.incoming.typed
  obtain ⟨first, rest, hfirst⟩ := List.exists_cons_of_ne_nil hbody
  let dup : ℤ → Except String ℤ := .ok
  have hreadable : ∀ y, readable dup y = true := by intro y; cases y <;> rfl
  have hall := messageRead_all_ends silentRuntime frontTables hty (validItems_of_all hreadable _)
    [d.incoming.body]
  have hpushed : pushed .Match d.incoming.message = .ref := by
    have htype : d.incoming.message.type = d.incoming.type := rfl
    rw [pushed, htype, hsignal]
  have hheld : ∀ i, d.kinds[i]? = some .Match →
      holds (d.kinds.map fun k => pushed k d.incoming.message) i = some 0 := by
    intro i hi
    rw [holds_map hi, hpushed]
    rfl
  have hread := performed_read (m := d.incoming.message) hall
  -- what the second receiver gets after the first one, and what it gets alone
  have hafter := performed_read (m := { d.incoming.message with reader := cursorAt d.incoming.body [[]] }) (messageRead_one_end silentRuntime frontTables dup _)
  have halone : ∃ r, performed silentRuntime frontTables dup (.read (.count 1)) d.incoming.message =
      (.ok (.value (decode frontTables dup first)), r) := by
    obtain ⟨t, htfirst⟩ := fields_hasTy hty first (by rw [hfirst]; simp)
    obtain ⟨r, hone⟩ := messageRead_one silentRuntime frontTables rest htfirst
      (validItem_of_all hreadable first)
    rw [← hfirst] at hone
    exact ⟨_, performed_read (m := d.incoming.message) hone⟩
  obtain ⟨r, halone⟩ := halone
  have hsame := h silentRuntime frontTables dup [(0, .read .all), (1, .read (.count 1))] 1 .Match h1
  rw [results_alone, seen, hpushed] at hsame
  simp only [Pushed.object, results, runHandlers_ok, run_some (hheld 0 h0), run_some (hheld 1 h1),
    entriesOf_ne Nat.zero_ne_one, entriesOf_self, solo, objects, hread, Function.update_self, hafter,
    halone, List.cons.injEq, Except.ok.injEq, Output.value.injEq] at hsame
  exact decode_ne_nil frontTables (validItem_of_all hreadable first) hsame.1.symm

/-- The receivers of a message do not disturb each other exactly when it is not a signal, or at most
    one match fits it, or there is nothing to read in it. -/
theorem undisturbed_iff (d : Dispatch) :
    d.Undisturbed ↔ d.incoming.type ≠ .signal ∨ d.matching ≤ 1 ∨ d.incoming.body = [] := by
  constructor
  · intro h
    by_contra hno
    simp only [not_or, not_not, Nat.not_le] at hno
    obtain ⟨hsignal, hmatching, hbody⟩ := hno
    exact signal_disturbed hsignal hmatching hbody h
  · intro h rt tb dup schedule i k hi
    rw [results_alone, results_own hi]
    intro href
    by_cases hempty : d.incoming.body = []
    · exact .inl hempty
    · refine .inr fun j k' hji hj href' => ?_
      obtain ⟨hsignal, htwo⟩ := kinds_shared hi hj hji href href'
      rcases h with h | h | h
      · exact h hsignal
      · omega
      · exact hempty h

/-- A signal with one number that two matches subscribed to. -/
def twoSubscribers : Dispatch where
  incoming :=
    { type := .signal
      replyCookie := none
      headers := ⟨none, none, none, none, none⟩
      body := [.basic (.uint32 7)]
      typed := ⟨[.basic .uint32], .cons _ _ _ _ (.basic (.uint32 7)) .nil⟩ }
  answers := false
  matching := 2
  isReply := by simp

/-- The second subscriber finds the message read. -/
theorem twoSubscribers_disturbed : ¬ ∀ d : Dispatch, d.Undisturbed :=
  fun h => signal_disturbed (d := twoSubscribers) rfl (Nat.le_refl 2) (by simp [twoSubscribers]) (h _)

end JanetSdbus.Delivery
