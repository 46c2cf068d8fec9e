import JanetSdbus.Schemes.Fiber
import JanetSdbus.Schemes.Objects
import JanetSdbus.Schemes.Run

/-! Calls, and servers that answer them.

    A server takes a request up, in whatever state it is then: it sends some messages at once, and may
    go on later, when its loop resumes it. What it sends travels to the caller, who keeps the first
    reply, unless it has given up before, and drops the rest: a reply to a caller that gave up changes
    nothing here, whatever its library makes of it. Messages about different calls may
    overtake each other; those about the same call may not. `replied` says that a caller has what the
    server, left alone with the same request, state and resumptions, would reply first, and `settled`
    that it gets it. -/

namespace Schemes.Exchange
open Schemes.Fiber Objects Run

variable {ε ι ω ρ σ : Type*}

/-! ### Servers -/

/-- What is sent at once, and what goes on when the loop resumes it. -/
structure Service (ε ι ω : Type*) where
  sent : List ω
  rest : Option (ι → Fiber ε ι ω Unit)

/-- A fiber up to its next suspension. -/
def upTo (f : Fiber ε ι ω Unit) : Service ε ι ω :=
  match f.pcall with
  | (os, .done _) => ⟨os, none⟩
  | (os, .event k) => ⟨os, some k⟩

namespace Service

/-- All that is sent if the `n`-th resumption is `inp n`. -/
def outs (sv : Service ε ι ω) (inp : ℕ → ι) : List ω :=
  match sv.rest with
  | none => sv.sent
  | some k => sv.sent ++ Fiber.outs ((k (inp 0)).run fun n => inp (n + 1)).1

/-- What has been sent after some resumptions, and what goes on then. -/
def progress : Service ε ι ω → List ι → Option (List ω × Option (ι → Fiber ε ι ω Unit))
  | sv, [] => some (sv.sent, sv.rest)
  | sv, i :: is =>
    match sv.rest with
    | none => none
    | some k => ((upTo (k i)).progress is).map fun p => (sv.sent ++ p.1, p.2)

end Service

/-- Resumptions that begin with a list. -/
def Begins (is : List ι) (inp : ℕ → ι) : Prop := ∀ n i, is[n]? = some i → inp n = i

theorem Begins.cons {i : ι} {is : List ι} {inp : ℕ → ι} (h : Begins (i :: is) inp) :
    inp 0 = i ∧ Begins is fun n => inp (n + 1) :=
  ⟨h 0 i rfl, fun n j hj => h (n + 1) j hj⟩

theorem outs_upTo (f : Fiber ε ι ω Unit) (inp : ℕ → ι) : (upTo f).outs inp = Fiber.outs (f.run inp).1 := by
  have hrun := f.pcall_run inp
  rw [upTo]
  split at hrun
  · next os e h =>
    rw [h]
    exact hrun.1.symm
  · next os k h =>
    rw [h]
    exact hrun.2.1.symm

theorem outs_rest {sv : Service ε ι ω} {k : ι → Fiber ε ι ω Unit} (h : sv.rest = some k) (inp : ℕ → ι) :
    sv.outs inp = sv.sent ++ (upTo (k (inp 0))).outs fun n => inp (n + 1) := by
  rw [outs_upTo, Service.outs, h]

/-- One more resumption. -/
theorem progress_concat {sv : Service ε ι ω} {is : List ι} {os : List ω} {k : ι → Fiber ε ι ω Unit}
    (h : sv.progress is = some (os, some k)) (i : ι) :
    sv.progress (is ++ [i]) = some (os ++ (upTo (k i)).sent, (upTo (k i)).rest) := by
  induction is generalizing sv os with
  | nil =>
    obtain ⟨rfl, hrest⟩ := Prod.mk.inj (Option.some.inj h)
    simp only [List.nil_append, Service.progress, hrest, Option.map_some]
  | cons j is ih =>
    rw [Service.progress] at h
    cases hrest : sv.rest with
    | none => simp [hrest] at h
    | some k' =>
      rw [hrest] at h
      obtain ⟨⟨os', rest'⟩, hprogress, heq⟩ := Option.map_eq_some_iff.mp h
      obtain ⟨rfl, rfl⟩ := Prod.mk.inj heq
      simp only [List.cons_append, Service.progress, hrest, ih hprogress, Option.map_some,
        List.append_assoc]

/-- What has been sent so far begins what is sent in all, and is all of it once nothing goes on. -/
theorem progress_outs {sv : Service ε ι ω} {is : List ι} {os : List ω}
    {rest : Option (ι → Fiber ε ι ω Unit)} (h : sv.progress is = some (os, rest)) {inp : ℕ → ι}
    (hinp : Begins is inp) : (∃ more, sv.outs inp = os ++ more) ∧ (rest = none → sv.outs inp = os) := by
  induction is generalizing sv os inp with
  | nil =>
    obtain ⟨rfl, rfl⟩ := Prod.mk.inj (Option.some.inj h)
    cases hrest : sv.rest with
    | none => exact ⟨⟨[], by rw [Service.outs, hrest, List.append_nil]⟩, fun _ => by rw [Service.outs, hrest]⟩
    | some k => exact ⟨⟨_, outs_rest hrest inp⟩, fun hnone => absurd hnone (by simp)⟩
  | cons i is ih =>
    rw [Service.progress] at h
    cases hrest : sv.rest with
    | none => simp [hrest] at h
    | some k =>
      rw [hrest] at h
      obtain ⟨⟨os', rest'⟩, hprogress, heq⟩ := Option.map_eq_some_iff.mp h
      obtain ⟨rfl, rfl⟩ := Prod.mk.inj heq
      obtain ⟨hfirst, htail⟩ := hinp.cons
      obtain ⟨⟨more, hmore⟩, hall⟩ := ih hprogress htail
      rw [outs_rest hrest, hfirst]
      exact ⟨⟨more, by rw [hmore, List.append_assoc]⟩, fun hnone => by rw [hall hnone]⟩

/-! ### The system -/

/-- What a caller ends up with. -/
inductive Result (ω : Type*) where
  | reply (o : ω)
  | gaveUp

/-- Where the request is. `found` and `given` are ghosts: the state in which the server took it up,
    and its resumptions. -/
inductive Stage (ε ι ω σ : Type*) where
  | travelling
  | taken (found : σ) (given : List ι) (rest : Option (ι → Fiber ε ι ω Unit))

/-- `received` is a ghost: what has reached the caller. -/
structure Call (ε ι ω ρ σ : Type*) where
  request : ρ
  stage : Stage ε ι ω σ
  received : List ω
  result : Option (Result ω)

structure State (ε ι ω ρ σ : Type*) where
  calls : List (Call ε ι ω ρ σ)
  /-- what servers have sent, with the number of the call it is about -/
  network : List (ℕ × ω)

inductive Step (ι ρ σ : Type*) where
  | call (r : ρ)
  | take (n : ℕ) (found : σ)
  | resume (n : ℕ) (i : ι)
  | deliver (n : ℕ)
  | giveUp (n : ℕ)

/-- The first message about call `n`, and the others. -/
def pick (n : ℕ) : List (ℕ × ω) → Option (ω × List (ℕ × ω))
  | [] => none
  | p :: ps => if p.1 = n then some (p.2, ps) else (pick n ps).map fun q => (q.1, p :: q.2)

/-- A caller that is still waiting keeps a reply. -/
def keep (isReply : ω → Bool) (o : ω) : Option (Result ω) → Option (Result ω)
  | none => if isReply o then some (.reply o) else none
  | some r => some r

/-- The server of call `n` goes on to here. -/
def State.serve (s : State ε ι ω ρ σ) (n : ℕ) (c : Call ε ι ω ρ σ) (found : σ) (given : List ι)
    (sv : Service ε ι ω) : State ε ι ω ρ σ :=
  ⟨s.calls.set n { c with stage := .taken found given sv.rest },
    s.network ++ sv.sent.map fun o => (n, o)⟩

def step (service : ρ → σ → Service ε ι ω) (isReply : ω → Bool) (s : State ε ι ω ρ σ) :
    Step ι ρ σ → Option (State ε ι ω ρ σ)
  | .call r => some { s with calls := s.calls ++ [⟨r, .travelling, [], none⟩] }
  | .take n found => s.calls[n]?.bind fun c =>
    match c.stage with
    | .travelling => some (s.serve n c found [] (service c.request found))
    | _ => none
  | .resume n i => s.calls[n]?.bind fun c =>
    match c.stage with
    | .taken found given (some k) => some (s.serve n c found (given ++ [i]) (upTo (k i)))
    | _ => none
  | .deliver n => s.calls[n]?.bind fun c => (pick n s.network).map fun p =>
    ⟨s.calls.set n { c with received := c.received ++ [p.1], result := keep isReply p.1 c.result }, p.2⟩
  | .giveUp n => s.calls[n]?.bind fun c =>
    match c.result with
    | none => some { s with calls := s.calls.set n { c with result := some .gaveUp } }
    | some _ => none

/-! ### What is kept of a call -/

section invariant
variable (service : ρ → σ → Service ε ι ω) (isReply : ω → Bool)

/-- What has been sent is what has been received and what is under way, in this order. -/
structure Follows (network : List (ℕ × ω)) (n : ℕ) (c : Call ε ι ω ρ σ) : Prop where
  sent : match c.stage with
    | .travelling => c.received ++ entriesOf n network = []
    | .taken found given rest =>
      (service c.request found).progress given = some (c.received ++ entriesOf n network, rest)
  result : match c.result with
    | none => c.received.find? isReply = none
    | some (.reply o) => c.received.find? isReply = some o
    | some .gaveUp => True

/-- Every call is followed, and nothing is under way about a call that has not been made. -/
structure Good (s : State ε ι ω ρ σ) : Prop where
  follows : ∀ n c, s.calls[n]? = some c → Follows service isReply s.network n c
  known : ∀ n, s.calls.length ≤ n → entriesOf n s.network = []

end invariant

variable {service : ρ → σ → Service ε ι ω} {isReply : ω → Bool} {s s' : State ε ι ω ρ σ} {n : ℕ}
  {network : List (ℕ × ω)} {c : Call ε ι ω ρ σ}

theorem entries_append (n : ℕ) (ps qs : List (ℕ × ω)) :
    entriesOf n (ps ++ qs) = entriesOf n ps ++ entriesOf n qs := List.filterMap_append

/-- Messages about call `n` only. -/
theorem entries_sent (n m : ℕ) (os : List ω) :
    entriesOf m (os.map fun o => (n, o)) = if m = n then os else [] := by
  split
  · next h =>
    subst h
    exact entriesOf_map m os
  · next h =>
    induction os with
    | nil => rfl
    | cons o os ih => rw [List.map_cons, entriesOf_ne (fun heq => h heq.symm), ih]

theorem pick_entries {o : ω} {rest : List (ℕ × ω)} (h : pick n network = some (o, rest)) :
    entriesOf n network = o :: entriesOf n rest ∧ ∀ m, m ≠ n → entriesOf m network = entriesOf m rest := by
  induction network generalizing rest with
  | nil => exact absurd h (by simp [pick])
  | cons p ps ih =>
    rcases p with ⟨k, o'⟩
    rw [pick] at h
    split at h
    · next hk =>
      obtain rfl : k = n := hk
      obtain ⟨rfl, rfl⟩ := Prod.mk.inj (Option.some.inj h)
      exact ⟨entriesOf_self k _ _, fun m hm => entriesOf_ne (Ne.symm hm) _ _⟩
    · next hk =>
      obtain ⟨⟨o'', rest'⟩, hpick, heq⟩ := Option.map_eq_some_iff.mp h
      obtain ⟨rfl, rfl⟩ := Prod.mk.inj heq
      obtain ⟨hown, hothers⟩ := ih hpick
      refine ⟨by rw [entriesOf_ne hk, entriesOf_ne hk, hown], fun m hm => ?_⟩
      by_cases hkm : k = m
      · subst hkm
        rw [entriesOf_self, entriesOf_self, hothers k hm]
      · rw [entriesOf_ne hkm, entriesOf_ne hkm, hothers m hm]

theorem find_concat (os : List ω) (o : ω) : (os ++ [o]).find? isReply =
    match os.find? isReply with
    | some x => some x
    | none => if isReply o then some o else none := by
  rw [List.find?_append]
  cases os.find? isReply with
  | some x => rfl
  | none => by_cases h : isReply o = true <;> simp [h]

/-- Other calls do not notice. -/
theorem Follows.frame (h : Follows service isReply network n c) {network' : List (ℕ × ω)}
    (heq : entriesOf n network' = entriesOf n network) : Follows service isReply network' n c := by
  refine ⟨?_, h.result⟩
  have hsent := h.sent
  rw [← heq] at hsent
  exact hsent

/-- A step about one call. -/
theorem Good.set (h : Good service isReply s) (hn : s.calls[n]? = some c) {c' : Call ε ι ω ρ σ}
    (hc : Follows service isReply network n c') (hothers : ∀ m, m ≠ n → entriesOf m network = entriesOf m s.network) :
    Good service isReply ⟨s.calls.set n c', network⟩ := by
  have hlt : n < s.calls.length := (List.getElem?_eq_some_iff.mp hn).1
  constructor
  · intro m d hd
    rw [List.getElem?_set, if_pos hlt] at hd
    split at hd
    · next heq =>
      subst heq
      obtain rfl := Option.some.inj hd
      exact hc
    · next hne => exact (h.follows m d hd).frame (hothers m (Ne.symm hne))
  · intro m hm
    rw [List.length_set] at hm
    rw [hothers m (by omega), h.known m hm]

/-- The server of a call goes on. -/
theorem Good.serve (h : Good service isReply s) (hn : s.calls[n]? = some c) {found : σ} {given : List ι}
    {sv : Service ε ι ω} (hsent : (service c.request found).progress given =
      some (c.received ++ entriesOf n s.network ++ sv.sent, sv.rest)) :
    Good service isReply (s.serve n c found given sv) := by
  refine h.set hn ⟨?_, (h.follows n c hn).result⟩ fun m hm => ?_
  · rw [entries_append, entries_sent, if_pos rfl, ← List.append_assoc]
    exact hsent
  · rw [entries_append, entries_sent, if_neg hm, List.append_nil]

theorem Good.step (h : Good service isReply s) {a : Step ι ρ σ}
    (hs : Exchange.step service isReply s a = some s') : Good service isReply s' := by
  cases a with
  | call r =>
    obtain rfl := Option.some.inj hs
    constructor
    · intro m d hd
      rcases Nat.lt_or_ge m s.calls.length with hm | hm
      · exact h.follows m d (by rwa [List.getElem?_append_left hm] at hd)
      · rw [List.getElem?_append_right hm] at hd
        obtain rfl := List.mem_singleton.mp (List.mem_of_getElem? hd)
        exact ⟨h.known m hm, rfl⟩
    · intro m hm
      rw [List.length_append] at hm
      exact h.known m (by omega)
  | take n found =>
    obtain ⟨c, hn, hs⟩ := Option.bind_eq_some_iff.mp hs
    cases hstage : c.stage with
    | taken found given rest => simp [hstage] at hs
    | travelling =>
      simp only [hstage] at hs
      obtain rfl := Option.some.inj hs
      have hsent := (h.follows n c hn).sent
      rw [hstage] at hsent
      exact h.serve hn (by rw [hsent, List.nil_append, Service.progress])
  | resume n i =>
    obtain ⟨c, hn, hs⟩ := Option.bind_eq_some_iff.mp hs
    cases hstage : c.stage with
    | travelling => simp [hstage] at hs
    | taken found given rest =>
      cases rest with
      | none => simp [hstage] at hs
      | some k =>
        simp only [hstage] at hs
        obtain rfl := Option.some.inj hs
        have hsent := (h.follows n c hn).sent
        rw [hstage] at hsent
        exact h.serve hn (progress_concat hsent i)
  | deliver n =>
    obtain ⟨c, hn, hs⟩ := Option.bind_eq_some_iff.mp hs
    obtain ⟨⟨o, rest⟩, hpick, rfl⟩ := Option.map_eq_some_iff.mp hs
    obtain ⟨hown, hothers⟩ := pick_entries hpick
    refine h.set hn ⟨?_, ?_⟩ fun m hm => (hothers m hm).symm
    · have hsent := (h.follows n c hn).sent
      rw [hown] at hsent
      simp only [List.append_assoc, List.singleton_append]
      exact hsent
    · have hresult := (h.follows n c hn).result
      cases hc : c.result with
      | none =>
        rw [hc] at hresult
        by_cases ho : isReply o = true
        · simp only [keep, if_pos ho, find_concat, hresult]
        · simp only [keep, if_neg ho, find_concat, hresult]
      | some r =>
        cases r with
        | gaveUp => trivial
        | reply x =>
          rw [hc] at hresult
          simp only [keep, find_concat, hresult]
  | giveUp n =>
    obtain ⟨c, hn, hs⟩ := Option.bind_eq_some_iff.mp hs
    cases hc : c.result with
    | some r => simp [hc] at hs
    | none =>
      simp only [hc] at hs
      obtain rfl := Option.some.inj hs
      exact h.set hn ⟨(h.follows n c hn).sent, trivial⟩ fun _ _ => rfl

/-! ### Results -/

theorem find_begins {os more : List ω} {o : ω} (h : os.find? isReply = some o) :
    (os ++ more).find? isReply = some o := by
  rw [List.find?_append, h]
  rfl

/-- What a caller has is what the server replies first, under the resumptions that it got and any others. -/
theorem Good.replied (h : Good service isReply s) (hn : s.calls[n]? = some c) {o : ω}
    (hresult : c.result = some (.reply o)) : ∃ found given rest, c.stage = .taken found given rest ∧
      ∀ inp, Begins given inp → ((service c.request found).outs inp).find? isReply = some o := by
  obtain ⟨hsent, hfound⟩ := h.follows n c hn
  rw [hresult] at hfound
  cases hstage : c.stage with
  | travelling =>
    rw [hstage] at hsent
    rw [(List.append_eq_nil_iff.mp hsent).1] at hfound
    exact absurd hfound (by simp)
  | taken found given rest =>
    rw [hstage] at hsent
    refine ⟨found, given, rest, rfl, fun inp hinp => ?_⟩
    obtain ⟨⟨more, hmore⟩, -⟩ := progress_outs hsent hinp
    rw [hmore]
    exact find_begins (find_begins hfound)

/-- When a server is done and nothing of it is under way, a caller who has not given up has what it
    replied first, if it replied. -/
theorem Good.settled (h : Good service isReply s) (hn : s.calls[n]? = some c) {found : σ} {given : List ι}
    (hdone : c.stage = .taken found given none) (hempty : entriesOf n s.network = [])
    (hpatient : c.result ≠ some .gaveUp) {inp : ℕ → ι} (hinp : Begins given inp) :
    c.result = (((service c.request found).outs inp).find? isReply).map .reply := by
  obtain ⟨hsent, hfound⟩ := h.follows n c hn
  rw [hdone, hempty, List.append_nil] at hsent
  rw [(progress_outs hsent hinp).2 rfl]
  cases hresult : c.result with
  | none =>
    rw [hresult] at hfound
    rw [hfound, Option.map_none]
  | some r =>
    cases r with
    | gaveUp => exact absurd hresult hpatient
    | reply o =>
      rw [hresult] at hfound
      rw [hfound, Option.map_some]

/-- A call as a later state may have it. -/
structure Later (c c' : Call ε ι ω ρ σ) : Prop where
  request : c'.request = c.request
  result : ∀ r, c.result = some r → c'.result = some r

theorem later_set (hn : s.calls[n]? = some c) {c' : Call ε ι ω ρ σ} (hlater : Later c c') {m : ℕ}
    {d : Call ε ι ω ρ σ} (hm : s.calls[m]? = some d) : ∃ d', (s.calls.set n c')[m]? = some d' ∧ Later d d' := by
  rw [List.getElem?_set, if_pos (List.getElem?_eq_some_iff.mp hn).1]
  split
  · next heq =>
    subst heq
    obtain rfl := Option.some.inj (hn.symm.trans hm)
    exact ⟨c', rfl, hlater⟩
  · exact ⟨d, hm, rfl, fun _ hr => hr⟩

/-- No step takes a result back. -/
theorem step_later {a : Step ι ρ σ} (hs : step service isReply s a = some s') {m : ℕ} {d : Call ε ι ω ρ σ}
    (hm : s.calls[m]? = some d) : ∃ d', s'.calls[m]? = some d' ∧ Later d d' := by
  cases a with
  | call r =>
    obtain rfl := Option.some.inj hs
    have hlt := (List.getElem?_eq_some_iff.mp hm).1
    exact ⟨d, by rwa [List.getElem?_append_left hlt], rfl, fun _ hr => hr⟩
  | take n found =>
    obtain ⟨c, hn, hs⟩ := Option.bind_eq_some_iff.mp hs
    split at hs
    · obtain rfl := Option.some.inj hs
      refine later_set hn ?_ hm
      exact ⟨rfl, fun _ hr => hr⟩
    · exact absurd hs (by simp)
  | resume n i =>
    obtain ⟨c, hn, hs⟩ := Option.bind_eq_some_iff.mp hs
    split at hs
    · obtain rfl := Option.some.inj hs
      refine later_set hn ?_ hm
      exact ⟨rfl, fun _ hr => hr⟩
    · exact absurd hs (by simp)
  | deliver n =>
    obtain ⟨c, hn, hs⟩ := Option.bind_eq_some_iff.mp hs
    obtain ⟨p, -, rfl⟩ := Option.map_eq_some_iff.mp hs
    refine later_set hn ?_ hm
    exact ⟨rfl, fun r hr => by rw [hr, keep]⟩
  | giveUp n =>
    obtain ⟨c, hn, hs⟩ := Option.bind_eq_some_iff.mp hs
    split at hs
    · next hnone =>
      obtain rfl := Option.some.inj hs
      refine later_set hn ?_ hm
      exact ⟨rfl, fun r hr => absurd (hnone.symm.trans hr) (by simp)⟩
    · exact absurd hs (by simp)

/-! ### Runs -/

def initial : State ε ι ω ρ σ := ⟨[], []⟩

theorem Good.initial : Good service isReply (initial : State ε ι ω ρ σ) :=
  ⟨fun n c h => absurd h (by simp [Exchange.initial]), fun _ _ => rfl⟩

theorem good_run {as : List (Step ι ρ σ)} (hrun : exec (step service isReply) initial as = some s) :
    Good service isReply s :=
  (Meets.of_forall (p := fun _ => True) fun _ _ => trivial).invariant
    (fun _ _ _ hi _ hs => hi.step hs) Good.initial hrun

theorem later_run : ∀ {as : List (Step ι ρ σ)} {s : State ε ι ω ρ σ}, exec (step service isReply) s as = some s' →
    ∀ {m : ℕ} {d : Call ε ι ω ρ σ}, s.calls[m]? = some d → ∃ d', s'.calls[m]? = some d' ∧ Later d d'
  | [], s, hrun, m, d, hm => by
    obtain rfl := Option.some.inj hrun
    exact ⟨d, hm, rfl, fun _ hr => hr⟩
  | a :: as, s, hrun, m, d, hm => by
    obtain ⟨s₁, hs, hrest⟩ := Option.bind_eq_some_iff.mp hrun
    obtain ⟨d₁, hm₁, hlater₁⟩ := step_later hs hm
    obtain ⟨d₂, hm₂, hlater₂⟩ := later_run hrest hm₁
    exact ⟨d₂, hm₂, hlater₂.request.trans hlater₁.request, fun r hr => hlater₂.result r (hlater₁.result r hr)⟩

end Schemes.Exchange
