import Mathlib.Data.List.Infix

/-! Parsing expressions with captures.

    A pattern fails, or it matches the front of a text, leaves the rest and yields captures; a function
    that is applied to captures may raise, which ends the whole match. Choice is ordered, and the
    captures of what has failed are forgotten. Each operator has a rule that says when it matches. -/

namespace Schemes.Peg

/-- What a pattern makes of a text over `σ`: captures are of type `γ`, errors of type `ε`. -/
inductive Outcome (σ γ ε : Type) where
  | fail
  | raised (e : ε)
  | ok (captures : List γ) (rest : List σ)

/-- A pattern only moves forward. -/
structure Pattern (σ γ ε : Type) where
  run : List σ → Outcome σ γ ε
  suffix : ∀ {s cs r}, run s = .ok cs r → r <:+ s

variable {σ γ ε : Type}

theorem Pattern.length_le {p : Pattern σ γ ε} {s r : List σ} {cs : List γ} (h : p.run s = .ok cs r) :
    r.length ≤ s.length := (p.suffix h).length_le

/-- The text that a match has taken. -/
theorem Pattern.taken {p : Pattern σ γ ε} {s r : List σ} {cs : List γ} (h : p.run s = .ok cs r) :
    s.take (s.length - r.length) ++ r = s := by
  obtain ⟨w, rfl⟩ := p.suffix h
  rw [List.length_append, Nat.add_sub_cancel, List.take_left]

def Outcome.bind (o : Outcome σ γ ε) (f : List γ → List σ → Outcome σ γ ε) : Outcome σ γ ε :=
  match o with
  | .ok cs r => f cs r
  | .fail => .fail
  | .raised e => .raised e

theorem Outcome.bind_ok {o : Outcome σ γ ε} {f : List γ → List σ → Outcome σ γ ε} {cs : List γ} {r : List σ} :
    o.bind f = .ok cs r ↔ ∃ ds m, o = .ok ds m ∧ f ds m = .ok cs r := by
  cases o <;> simp [Outcome.bind]

/-! ### Texts -/

section texts
variable [DecidableEq σ]

def literalRun (w s : List σ) : Outcome σ γ ε := if w <+: s then .ok [] (s.drop w.length) else .fail

/-- The text `w`. -/
def literal (w : List σ) : Pattern σ γ ε where
  run := literalRun w
  suffix h := by
    rw [literalRun] at h
    split at h
    · obtain ⟨_, rfl⟩ := (Outcome.ok.injEq ..).mp h
      exact List.drop_suffix _ _
    · exact absurd h (by simp)

theorem literal_ok {w s r : List σ} {cs : List γ} :
    (literal w : Pattern σ γ ε).run s = .ok cs r ↔ cs = [] ∧ s = w ++ r := by
  show literalRun w s = .ok cs r ↔ _
  rw [literalRun]
  constructor
  · intro h
    split at h
    · next hpre =>
      obtain ⟨u, rfl⟩ := hpre
      rw [List.drop_left] at h
      obtain ⟨rfl, rfl⟩ := (Outcome.ok.injEq ..).mp h
      exact ⟨rfl, rfl⟩
    · exact absurd h (by simp)
  · rintro ⟨rfl, rfl⟩
    rw [if_pos (List.prefix_append _ _), List.drop_left]

theorem literal_char {c : σ} {s : List σ} : (literal [c] : Pattern σ γ ε).run (c :: s) = .ok [] s :=
  literal_ok.mpr ⟨rfl, rfl⟩

theorem literal_fail {w s : List σ} (h : ¬ w <+: s) : (literal w : Pattern σ γ ε).run s = .fail := if_neg h

end texts

def satisfyRun (f : σ → Bool) : List σ → Outcome σ γ ε
  | [] => .fail
  | c :: s => if f c then .ok [] s else .fail

/-- One element of the text. -/
def satisfy (f : σ → Bool) : Pattern σ γ ε where
  run := satisfyRun f
  suffix {s cs r} h := by
    cases s with
    | nil => exact absurd h (by simp [satisfyRun])
    | cons c s =>
      rw [satisfyRun] at h
      split at h
      · obtain ⟨_, rfl⟩ := (Outcome.ok.injEq ..).mp h
        exact List.suffix_cons _ _
      · exact absurd h (by simp)

theorem satisfy_ok {f : σ → Bool} {s r : List σ} {cs : List γ} :
    (satisfy f : Pattern σ γ ε).run s = .ok cs r ↔ cs = [] ∧ ∃ c, f c = true ∧ s = c :: r := by
  show satisfyRun f s = .ok cs r ↔ _
  constructor
  · intro h
    cases s with
    | nil => exact absurd h (by simp [satisfyRun])
    | cons c s =>
      rw [satisfyRun] at h
      split at h
      · next hc =>
        obtain ⟨rfl, rfl⟩ := (Outcome.ok.injEq ..).mp h
        exact ⟨rfl, c, hc, rfl⟩
      · exact absurd h (by simp)
  · rintro ⟨rfl, c, hc, rfl⟩
    exact if_pos hc

theorem satisfy_fail {f : σ → Bool} {s : List σ} (h : ∀ c r, s = c :: r → f c = false) :
    (satisfy f : Pattern σ γ ε).run s = .fail := by
  cases s with
  | nil => rfl
  | cons c s => exact if_neg (by rw [h c s rfl]; decide)

def atEndRun : List σ → Outcome σ γ ε
  | [] => .ok [] []
  | _ :: _ => .fail

/-- The end of the text. -/
def atEnd : Pattern σ γ ε where
  run := atEndRun
  suffix {s cs r} h := by
    cases s with
    | nil =>
      obtain ⟨_, rfl⟩ := (Outcome.ok.injEq ..).mp h
      exact List.suffix_refl _
    | cons c s => exact absurd h (by simp [atEndRun])

theorem atEnd_ok {s r : List σ} {cs : List γ} :
    (atEnd : Pattern σ γ ε).run s = .ok cs r ↔ cs = [] ∧ s = [] ∧ r = [] := by
  cases s <;> simp [atEnd, atEndRun, eq_comm]

/-! ### Sequence and choice -/

def sequenceRun : List (Pattern σ γ ε) → List σ → Outcome σ γ ε
  | [], s => .ok [] s
  | p :: ps, s => (p.run s).bind fun cs m => (sequenceRun ps m).bind fun ds r => .ok (cs ++ ds) r

theorem sequenceRun_cons {p : Pattern σ γ ε} {ps : List (Pattern σ γ ε)} {s r : List σ} {cs : List γ} :
    sequenceRun (p :: ps) s = .ok cs r ↔
      ∃ cs₁ m cs₂, p.run s = .ok cs₁ m ∧ sequenceRun ps m = .ok cs₂ r ∧ cs = cs₁ ++ cs₂ := by
  simp only [sequenceRun, Outcome.bind_ok, Outcome.ok.injEq]
  constructor
  · rintro ⟨cs₁, m, h₁, cs₂, _, h₂, rfl, rfl⟩
    exact ⟨cs₁, m, cs₂, h₁, h₂, rfl⟩
  · rintro ⟨cs₁, m, cs₂, h₁, h₂, rfl⟩
    exact ⟨cs₁, m, h₁, cs₂, r, h₂, rfl, rfl⟩

/-- One pattern after the other. -/
def sequence (ps : List (Pattern σ γ ε)) : Pattern σ γ ε where
  run := sequenceRun ps
  suffix {s cs r} h := by
    induction ps generalizing s cs with
    | nil =>
      obtain ⟨_, rfl⟩ := (Outcome.ok.injEq ..).mp h
      exact List.suffix_refl _
    | cons p ps ih =>
      obtain ⟨_, m, _, h₁, h₂, _⟩ := sequenceRun_cons.mp h
      exact (ih h₂).trans (p.suffix h₁)

theorem sequence_nil {s r : List σ} {cs : List γ} :
    (sequence ([] : List (Pattern σ γ ε))).run s = .ok cs r ↔ cs = [] ∧ s = r := by
  show Outcome.ok [] s = Outcome.ok cs r ↔ _
  rw [Outcome.ok.injEq, eq_comm]

theorem sequence_cons {p : Pattern σ γ ε} {ps : List (Pattern σ γ ε)} {s r : List σ} {cs : List γ} :
    (sequence (p :: ps)).run s = .ok cs r ↔
      ∃ cs₁ m cs₂, p.run s = .ok cs₁ m ∧ (sequence ps).run m = .ok cs₂ r ∧ cs = cs₁ ++ cs₂ := sequenceRun_cons

theorem sequence_one {p : Pattern σ γ ε} {s r : List σ} {cs : List γ} :
    (sequence [p]).run s = .ok cs r ↔ p.run s = .ok cs r := by
  refine sequence_cons.trans ⟨?_, fun h => ⟨cs, r, [], h, sequence_nil.mpr ⟨rfl, rfl⟩, (List.append_nil _).symm⟩⟩
  rintro ⟨ds, m, _, h, hnil, rfl⟩
  obtain ⟨rfl, rfl⟩ := sequence_nil.mp hnil
  rwa [List.append_nil]

theorem sequence_run {p : Pattern σ γ ε} {ps : List (Pattern σ γ ε)} {s m r : List σ} {cs ds : List γ}
    (h : p.run s = .ok cs m) (hps : (sequence ps).run m = .ok ds r) :
    (sequence (p :: ps)).run s = .ok (cs ++ ds) r := sequence_cons.mpr ⟨cs, m, ds, h, hps, rfl⟩

/-- It fails where its first pattern fails. -/
theorem sequence_fail {p : Pattern σ γ ε} {ps : List (Pattern σ γ ε)} {s : List σ} (h : p.run s = .fail) :
    (sequence (p :: ps)).run s = .fail := by
  show sequenceRun (p :: ps) s = .fail
  rw [sequenceRun, h]
  rfl

/-- It fails where the patterns behind the first do. -/
theorem sequence_fail_tail {p : Pattern σ γ ε} {ps : List (Pattern σ γ ε)} {s m : List σ} {cs : List γ}
    (h : p.run s = .ok cs m) (hps : (sequence ps).run m = .fail) : (sequence (p :: ps)).run s = .fail := by
  have htail : sequenceRun ps m = .fail := hps
  show sequenceRun (p :: ps) s = .fail
  rw [sequenceRun, h, Outcome.bind, htail]
  rfl

/-- An error in one of the patterns is one of the sequence. -/
theorem sequence_raised {p : Pattern σ γ ε} {ps : List (Pattern σ γ ε)} {s : List σ} {e : ε}
    (h : p.run s = .raised e) : (sequence (p :: ps)).run s = .raised e := by
  show sequenceRun (p :: ps) s = .raised e
  rw [sequenceRun, h]
  rfl

theorem sequence_raised_tail {p : Pattern σ γ ε} {ps : List (Pattern σ γ ε)} {s m : List σ} {cs : List γ} {e : ε}
    (h : p.run s = .ok cs m) (hps : (sequence ps).run m = .raised e) :
    (sequence (p :: ps)).run s = .raised e := by
  have htail : sequenceRun ps m = .raised e := hps
  show sequenceRun (p :: ps) s = .raised e
  rw [sequenceRun, h, Outcome.bind, htail]
  rfl

def choiceRun : List (Pattern σ γ ε) → List σ → Outcome σ γ ε
  | [], _ => .fail
  | p :: ps, s =>
    match p.run s with
    | .fail => choiceRun ps s
    | o => o

theorem choiceRun_mem {ps : List (Pattern σ γ ε)} {s r : List σ} {cs : List γ} (h : choiceRun ps s = .ok cs r) :
    ∃ p ∈ ps, p.run s = .ok cs r := by
  induction ps with
  | nil => exact absurd h (by simp [choiceRun])
  | cons p ps ih =>
    cases hp : p.run s with
    | fail =>
      rw [choiceRun, hp] at h
      obtain ⟨q, hq, hrun⟩ := ih h
      exact ⟨q, List.mem_cons_of_mem _ hq, hrun⟩
    | raised e => rw [choiceRun, hp] at h; exact absurd h (by simp)
    | ok ds m =>
      rw [choiceRun, hp] at h
      exact ⟨p, List.mem_cons_self, by rw [hp]; exact h⟩

/-- The first pattern that does not fail. -/
def choice (ps : List (Pattern σ γ ε)) : Pattern σ γ ε where
  run := choiceRun ps
  suffix h := by
    obtain ⟨p, _, hp⟩ := choiceRun_mem h
    exact p.suffix hp

theorem choice_mem {ps : List (Pattern σ γ ε)} {s r : List σ} {cs : List γ} (h : (choice ps).run s = .ok cs r) :
    ∃ p ∈ ps, p.run s = .ok cs r := choiceRun_mem h

theorem choice_first {p : Pattern σ γ ε} {ps : List (Pattern σ γ ε)} {s : List σ} {o : Outcome σ γ ε}
    (h : p.run s = o) (ho : o ≠ .fail) : (choice (p :: ps)).run s = o := by
  show choiceRun (p :: ps) s = o
  rw [choiceRun, h]
  cases o with
  | fail => exact absurd rfl ho
  | raised e => rfl
  | ok cs r => rfl

theorem choice_next {p : Pattern σ γ ε} {ps : List (Pattern σ γ ε)} {s : List σ} (h : p.run s = .fail) :
    (choice (p :: ps)).run s = (choice ps).run s := by
  show choiceRun (p :: ps) s = choiceRun ps s
  rw [choiceRun, h]

theorem choice_fail {ps : List (Pattern σ γ ε)} {s : List σ} (h : ∀ p ∈ ps, p.run s = .fail) :
    (choice ps).run s = .fail := by
  induction ps with
  | nil => rfl
  | cons p ps ih =>
    rw [choice_next (h p List.mem_cons_self)]
    exact ih fun q hq => h q (List.mem_cons_of_mem _ hq)

/-- One of the patterns does not fail and all others do. -/
theorem choice_of_mem {p : Pattern σ γ ε} {ps : List (Pattern σ γ ε)} {s : List σ} {o : Outcome σ γ ε} (hp : p ∈ ps)
    (h : p.run s = o) (ho : o ≠ .fail) (hothers : ∀ q ∈ ps, q.run s = .fail ∨ q.run s = o) :
    (choice ps).run s = o := by
  induction ps with
  | nil => exact absurd hp (by simp)
  | cons q ps ih =>
    rcases hothers q List.mem_cons_self with hq | hq
    · rw [choice_next hq]
      refine ih ?_ fun q' hq' => hothers q' (List.mem_cons_of_mem _ hq')
      rcases List.mem_cons.mp hp with rfl | hmem
      · exact absurd (h.symm.trans hq) ho
      · exact hmem
    · exact choice_first hq ho

/-- Texts none of which begins with another. -/
theorem choice_literals [DecidableEq σ] {κ : Type} {f : κ → List σ} {ks : List κ}
    (hfree : ∀ k ∈ ks, ∀ k' ∈ ks, f k <+: f k' → f k = f k') {s r : List σ} {cs : List γ} :
    (choice (ks.map fun k => (literal (f k) : Pattern σ γ ε))).run s = .ok cs r ↔
      cs = [] ∧ ∃ k ∈ ks, s = f k ++ r := by
  constructor
  · intro h
    obtain ⟨p, hp, hrun⟩ := choice_mem h
    obtain ⟨k, hk, rfl⟩ := List.mem_map.mp hp
    obtain ⟨rfl, hs⟩ := literal_ok.mp hrun
    exact ⟨rfl, k, hk, hs⟩
  · rintro ⟨rfl, k, hk, rfl⟩
    refine choice_of_mem (List.mem_map_of_mem hk) (literal_ok.mpr ⟨rfl, rfl⟩) (by simp) fun q hq => ?_
    obtain ⟨k', hk', rfl⟩ := List.mem_map.mp hq
    by_cases hpre : f k' <+: f k ++ r
    · have heq : f k' = f k := by
        rcases List.prefix_or_prefix_of_prefix hpre (List.prefix_append (f k) r) with h | h
        · exact hfree k' hk' k hk h
        · exact (hfree k hk k' hk' h).symm
      exact .inr (literal_ok.mpr ⟨rfl, by rw [heq]⟩)
    · exact .inl (literal_fail hpre)

/-! ### Repetition -/

/-- At most `n` matches; one that takes nothing is not a match. -/
def anyRun (p : Pattern σ γ ε) : ℕ → List σ → Outcome σ γ ε
  | 0, s => .ok [] s
  | n + 1, s =>
    match p.run s with
    | .fail => .ok [] s
    | .raised e => .raised e
    | .ok cs m =>
      if m.length = s.length then .ok [] s else (anyRun p n m).bind fun ds r => .ok (cs ++ ds) r

/-- The pattern does not match further. -/
def Stops (p : Pattern σ γ ε) (s : List σ) : Prop :=
  p.run s = .fail ∨ ∃ cs m, p.run s = .ok cs m ∧ m.length = s.length

/-- A row of matches, as long as there are any. -/
inductive Repeats (p : Pattern σ γ ε) : List σ → List γ → List σ → Prop where
  | stop {s : List σ} : Stops p s → Repeats p s [] s
  | step {s m r : List σ} {cs ds : List γ} : p.run s = .ok cs m → m.length < s.length → Repeats p m ds r →
      Repeats p s (cs ++ ds) r

theorem anyRun_iff {p : Pattern σ γ ε} : ∀ {n : ℕ} {s r : List σ} {cs : List γ}, s.length < n →
    (anyRun p n s = .ok cs r ↔ Repeats p s cs r)
  | 0, _, _, _, h => absurd h (Nat.not_lt_zero _)
  | n + 1, s, r, cs, h => by
    rw [anyRun]
    constructor
    · intro hrun
      cases hp : p.run s with
      | fail =>
        rw [hp] at hrun
        obtain ⟨rfl, rfl⟩ := (Outcome.ok.injEq ..).mp hrun
        exact .stop (.inl hp)
      | raised e => rw [hp] at hrun; exact absurd hrun (by simp)
      | ok ds m =>
        rw [hp] at hrun
        dsimp only at hrun
        split at hrun
        · next hlen =>
          obtain ⟨rfl, rfl⟩ := (Outcome.ok.injEq ..).mp hrun
          exact .stop (.inr ⟨ds, m, hp, hlen⟩)
        · next hlen =>
          obtain ⟨ds', m', hrest, heq⟩ := Outcome.bind_ok.mp hrun
          obtain ⟨rfl, rfl⟩ := (Outcome.ok.injEq ..).mp heq
          have hlt := Nat.lt_of_le_of_ne (Pattern.length_le hp) hlen
          exact .step hp hlt ((anyRun_iff (Nat.lt_of_lt_of_le hlt (Nat.le_of_lt_succ h))).mp hrest)
    · intro hrep
      cases hrep with
      | stop hstop =>
        rcases hstop with hp | ⟨cs, m, hp, hlen⟩
        · rw [hp]
        · rw [hp]
          exact if_pos hlen
      | step hp hlt hrest =>
        have hrun := (anyRun_iff (Nat.lt_of_lt_of_le hlt (Nat.le_of_lt_succ h))).mpr hrest
        rw [hp]
        dsimp only
        rw [if_neg (Nat.ne_of_lt hlt), hrun]
        rfl

/-- As many matches as there are. -/
def any (p : Pattern σ γ ε) : Pattern σ γ ε where
  run s := anyRun p (s.length + 1) s
  suffix {s cs r} h := by
    have hrep := (anyRun_iff (Nat.lt_succ_self s.length)).mp h
    induction hrep with
    | stop _ => exact List.suffix_refl _
    | step hp _ hrest ih => exact (ih ((anyRun_iff (Nat.lt_succ_self _)).mpr hrest)).trans (p.suffix hp)

theorem any_ok {p : Pattern σ γ ε} {s r : List σ} {cs : List γ} :
    (any p).run s = .ok cs r ↔ Repeats p s cs r := anyRun_iff (Nat.lt_succ_self _)

/-- A row of matches up to an error. -/
inductive Raises (p : Pattern σ γ ε) (e : ε) : List σ → Prop where
  | here {s : List σ} : p.run s = .raised e → Raises p e s
  | step {s m : List σ} {cs : List γ} : p.run s = .ok cs m → m.length < s.length → Raises p e m → Raises p e s

theorem any_raised {p : Pattern σ γ ε} {e : ε} {s : List σ} (h : Raises p e s) : (any p).run s = .raised e := by
  have hrun : ∀ n, s.length < n → anyRun p n s = .raised e := by
    induction h with
    | here hp =>
      rintro (_ | n) hn
      · exact absurd hn (Nat.not_lt_zero _)
      · rw [anyRun, hp]
    | step hp hlt _ ih =>
      rintro (_ | n) hn
      · exact absurd hn (Nat.not_lt_zero _)
      · rw [anyRun, hp]
        dsimp only
        rw [if_neg (Nat.ne_of_lt hlt), ih n (Nat.lt_of_lt_of_le hlt (Nat.le_of_lt_succ hn))]
        rfl
  exact hrun _ (Nat.lt_succ_self _)

/-- At least one match. -/
def some (p : Pattern σ γ ε) : Pattern σ γ ε := sequence [p, any p]

def optRun (p : Pattern σ γ ε) (s : List σ) : Outcome σ γ ε :=
  match p.run s with
  | .fail => .ok [] s
  | o => o

theorem optRun_ok {p : Pattern σ γ ε} {s r : List σ} {cs : List γ} :
    optRun p s = .ok cs r ↔ p.run s = .ok cs r ∨ p.run s = .fail ∧ cs = [] ∧ s = r := by
  rw [optRun]
  cases p.run s with
  | fail => simp [eq_comm]
  | raised e => simp
  | ok ds m => simp

/-- One match, or none. -/
def opt (p : Pattern σ γ ε) : Pattern σ γ ε where
  run := optRun p
  suffix h := by
    rcases optRun_ok.mp h with h | ⟨_, _, rfl⟩
    · exact p.suffix h
    · exact List.suffix_refl _

theorem opt_ok {p : Pattern σ γ ε} {s r : List σ} {cs : List γ} :
    (opt p).run s = .ok cs r ↔ p.run s = .ok cs r ∨ p.run s = .fail ∧ cs = [] ∧ s = r := optRun_ok

/-! ### Predicates -/

def ifNotRun (c p : Pattern σ γ ε) (s : List σ) : Outcome σ γ ε :=
  match c.run s with
  | .fail => p.run s
  | .raised e => .raised e
  | .ok _ _ => .fail

/-- `p`, where `c` does not match. -/
def ifNot (c p : Pattern σ γ ε) : Pattern σ γ ε where
  run := ifNotRun c p
  suffix {s cs r} h := by
    rw [ifNotRun] at h
    split at h
    · exact p.suffix h
    · exact absurd h (by simp)
    · exact absurd h (by simp)

/-- A pattern that takes one element, of the class `f`. -/
def OfClass (p : Pattern σ γ ε) (f : σ → Bool) : Prop := ∀ s, p.run s = satisfyRun f s

theorem ofClass_satisfy (f : σ → Bool) : OfClass (satisfy f : Pattern σ γ ε) f := fun _ => rfl

theorem ofClass_ifNot [DecidableEq σ] (c : σ) :
    OfClass (ifNot (literal [c]) (satisfy fun _ => true) : Pattern σ γ ε) (fun x => x ≠ c) := by
  intro s
  show ifNotRun (literal [c]) (satisfy fun _ => true) s = _
  rw [ifNotRun]
  cases s with
  | nil => rfl
  | cons x s =>
    by_cases hx : x = c
    · subst hx
      rw [literal_char]
      exact (if_neg (by simp)).symm
    · rw [literal_fail (fun h => hx (List.cons_prefix_cons.mp h).1.symm)]
      exact (if_pos (by simp [hx])).symm

/-- The longest front of elements of the class. -/
theorem any_ofClass {p : Pattern σ γ ε} {f : σ → Bool} (hp : OfClass p f) {s r : List σ} {cs : List γ} :
    (any p).run s = .ok cs r ↔
      cs = [] ∧ ∃ w, s = w ++ r ∧ (∀ c ∈ w, f c = true) ∧ ∀ c, r.head? = Option.some c → f c = false := by
  rw [any_ok]
  constructor
  · intro h
    induction h with
    | @stop s hstop =>
      refine ⟨rfl, [], rfl, by simp, fun c hc => ?_⟩
      cases s with
      | nil => exact absurd hc (by simp)
      | cons x s =>
        obtain rfl : x = c := Option.some.inj hc
        by_contra hfx
        have hrun : p.run (x :: s) = .ok [] s := (hp _).trans (if_pos (by simpa using hfx))
        rcases hstop with hfail | ⟨_, _, hok, hlen⟩
        · exact absurd (hfail.symm.trans hrun) (by simp)
        · obtain ⟨_, rfl⟩ := (Outcome.ok.injEq ..).mp (hok.symm.trans hrun)
          exact absurd hlen (by simp)
    | @step s m r cs ds hrun _ _ ih =>
      obtain ⟨rfl, w, rfl, hw, hr⟩ := ih
      obtain ⟨rfl, c, hc, rfl⟩ := satisfy_ok.mp ((ofClass_satisfy f s).trans ((hp s).symm.trans hrun))
      refine ⟨rfl, c :: w, rfl, ?_, hr⟩
      rintro x (_ | ⟨_, hx⟩)
      · exact hc
      · exact hw x hx
  · rintro ⟨rfl, w, rfl, hw, hr⟩
    induction w with
    | nil =>
      refine .stop (.inl ((hp _).trans ?_))
      cases r with
      | nil => rfl
      | cons x r => exact if_neg (by rw [hr x rfl]; decide)
    | cons c w ih =>
      have hrun : p.run (c :: (w ++ r)) = .ok [] (w ++ r) := (hp _).trans (if_pos (hw c List.mem_cons_self))
      exact .step hrun (Nat.lt_succ_self _) (ih fun x hx => hw x (List.mem_cons_of_mem _ hx))

theorem some_ofClass {p : Pattern σ γ ε} {f : σ → Bool} (hp : OfClass p f) {s r : List σ} {cs : List γ} :
    (some p).run s = .ok cs r ↔ cs = [] ∧ ∃ w, w ≠ [] ∧ s = w ++ r ∧ (∀ c ∈ w, f c = true) ∧
      ∀ c, r.head? = Option.some c → f c = false := by
  constructor
  · intro h
    obtain ⟨_, m, _, h₁, h₂, rfl⟩ := sequence_cons.mp h
    obtain ⟨rfl, c, hc, rfl⟩ := satisfy_ok.mp ((ofClass_satisfy f s).trans ((hp s).symm.trans h₁))
    obtain ⟨rfl, w, rfl, hw, hr⟩ := (any_ofClass hp).mp (sequence_one.mp h₂)
    refine ⟨rfl, c :: w, by simp, rfl, ?_, hr⟩
    rintro x (_ | ⟨_, hx⟩)
    · exact hc
    · exact hw x hx
  · rintro ⟨rfl, w, hne, rfl, hw, hr⟩
    cases w with
    | nil => exact absurd rfl hne
    | cons c w =>
      have hrun : p.run (c :: (w ++ r)) = .ok [] (w ++ r) := (hp _).trans (if_pos (hw c List.mem_cons_self))
      have hrest := (any_ofClass hp).mpr ⟨rfl, w, rfl, fun x hx => hw x (List.mem_cons_of_mem _ hx), hr⟩
      exact sequence_run hrun (sequence_one.mpr hrest)

def thruRun (p : Pattern σ γ ε) : List σ → Outcome σ γ ε
  | [] => p.run []
  | c :: s =>
    match p.run (c :: s) with
    | .fail => thruRun p s
    | o => o

/-- The first match of `p`, wherever it begins. -/
def thru (p : Pattern σ γ ε) : Pattern σ γ ε where
  run := thruRun p
  suffix {s cs r} h := by
    induction s with
    | nil => exact p.suffix h
    | cons c s ih =>
      rw [thruRun] at h
      split at h
      · exact (ih h).trans (List.suffix_cons _ _)
      · exact p.suffix h

theorem thru_char [DecidableEq σ] {c : σ} {s r : List σ} {cs : List γ} :
    (thru (literal [c]) : Pattern σ γ ε).run s = .ok cs r ↔ cs = [] ∧ ∃ w, c ∉ w ∧ s = w ++ c :: r := by
  show thruRun (literal [c]) s = .ok cs r ↔ _
  induction s with
  | nil => simp [thruRun, literal_ok]
  | cons x s ih =>
    rw [thruRun]
    by_cases hx : x = c
    · subst hx
      rw [literal_char]
      constructor
      · rintro h
        obtain ⟨rfl, rfl⟩ := (Outcome.ok.injEq ..).mp h
        exact ⟨rfl, [], by simp, rfl⟩
      · rintro ⟨rfl, w, hw, heq⟩
        cases w with
        | nil => rw [(List.cons.inj heq).2]
        | cons y w => exact absurd List.mem_cons_self ((List.cons.inj heq).1 ▸ hw)
    · rw [literal_fail (fun h => hx (List.cons_prefix_cons.mp h).1.symm)]
      refine ih.trans ⟨?_, ?_⟩
      · rintro ⟨rfl, w, hw, rfl⟩
        refine ⟨rfl, x :: w, ?_, rfl⟩
        rintro (_ | ⟨_, hmem⟩)
        · exact hx rfl
        · exact hw hmem
      · rintro ⟨rfl, w, hw, heq⟩
        cases w with
        | nil => exact absurd (List.cons.inj heq).1 hx
        | cons y w => exact ⟨rfl, w, fun hmem => hw (List.mem_cons_of_mem _ hmem), (List.cons.inj heq).2⟩

/-! ### Captures -/

def captureRun (p : Pattern σ γ ε) (mk : List σ → γ) (s : List σ) : Outcome σ γ ε :=
  (p.run s).bind fun cs r => .ok (cs ++ [mk (s.take (s.length - r.length))]) r

/-- The captures of `p`, and the text that it takes. -/
def capture (p : Pattern σ γ ε) (mk : List σ → γ) : Pattern σ γ ε where
  run := captureRun p mk
  suffix h := by
    obtain ⟨_, _, hp, heq⟩ := Outcome.bind_ok.mp h
    obtain ⟨_, rfl⟩ := (Outcome.ok.injEq ..).mp heq
    exact p.suffix hp

theorem capture_ok {p : Pattern σ γ ε} {mk : List σ → γ} {s r : List σ} {cs : List γ} :
    (capture p mk).run s = .ok cs r ↔ ∃ w ds, s = w ++ r ∧ p.run s = .ok ds r ∧ cs = ds ++ [mk w] := by
  show captureRun p mk s = .ok cs r ↔ _
  rw [captureRun, Outcome.bind_ok]
  constructor
  · rintro ⟨ds, m, hp, heq⟩
    obtain ⟨rfl, rfl⟩ := (Outcome.ok.injEq ..).mp heq
    exact ⟨_, ds, (Pattern.taken hp).symm, hp, rfl⟩
  · rintro ⟨w, ds, rfl, hp, rfl⟩
    refine ⟨ds, r, hp, ?_⟩
    rw [List.length_append, Nat.add_sub_cancel, List.take_left]

theorem capture_fail {p : Pattern σ γ ε} {mk : List σ → γ} {s : List σ} (h : p.run s = .fail) :
    (capture p mk).run s = .fail := by
  show captureRun p mk s = .fail
  rw [captureRun, h]
  rfl

def replaceRun (p : Pattern σ γ ε) (f : List γ → Except ε γ) (s : List σ) : Outcome σ γ ε :=
  (p.run s).bind fun cs r =>
    match f cs with
    | .ok c => .ok [c] r
    | .error e => .raised e

theorem replaceRun_ok {p : Pattern σ γ ε} {f : List γ → Except ε γ} {s r : List σ} {cs : List γ} :
    replaceRun p f s = .ok cs r ↔ ∃ ds c, p.run s = .ok ds r ∧ f ds = .ok c ∧ cs = [c] := by
  rw [replaceRun, Outcome.bind_ok]
  constructor
  · rintro ⟨ds, m, hp, heq⟩
    cases hf : f ds with
    | ok c =>
      rw [hf] at heq
      obtain ⟨rfl, rfl⟩ := (Outcome.ok.injEq ..).mp heq
      exact ⟨ds, c, hp, hf, rfl⟩
    | error e => rw [hf] at heq; exact absurd heq (by simp)
  · rintro ⟨ds, c, hp, hf, rfl⟩
    exact ⟨ds, r, hp, by rw [hf]⟩

/-- The captures of `p` become what `f` makes of them. -/
def replace (p : Pattern σ γ ε) (f : List γ → Except ε γ) : Pattern σ γ ε where
  run := replaceRun p f
  suffix h := by
    obtain ⟨_, _, hp, _⟩ := replaceRun_ok.mp h
    exact p.suffix hp

theorem replace_ok {p : Pattern σ γ ε} {f : List γ → Except ε γ} {s r : List σ} {cs : List γ} :
    (replace p f).run s = .ok cs r ↔ ∃ ds c, p.run s = .ok ds r ∧ f ds = .ok c ∧ cs = [c] := replaceRun_ok

theorem replace_fail {p : Pattern σ γ ε} {f : List γ → Except ε γ} {s : List σ} (h : p.run s = .fail) :
    (replace p f).run s = .fail := by
  show replaceRun p f s = .fail
  rw [replaceRun, h]
  rfl

theorem replace_raised {p : Pattern σ γ ε} {f : List γ → Except ε γ} {s : List σ} {e : ε} (h : p.run s = .raised e) :
    (replace p f).run s = .raised e := by
  show replaceRun p f s = .raised e
  rw [replaceRun, h]
  rfl

theorem replace_error {p : Pattern σ γ ε} {f : List γ → Except ε γ} {s r : List σ} {cs : List γ} {e : ε}
    (h : p.run s = .ok cs r) (hf : f cs = .error e) : (replace p f).run s = .raised e := by
  show replaceRun p f s = .raised e
  rw [replaceRun, h, Outcome.bind, hf]

/-- The captures of `p` become one. -/
def group (p : Pattern σ γ ε) (mk : List γ → γ) : Pattern σ γ ε := replace p fun cs => .ok (mk cs)

theorem group_ok {p : Pattern σ γ ε} {mk : List γ → γ} {s r : List σ} {cs : List γ} :
    (group p mk).run s = .ok cs r ↔ ∃ ds, p.run s = .ok ds r ∧ cs = [mk ds] := by
  refine replace_ok.trans ⟨?_, ?_⟩
  · rintro ⟨ds, c, hp, hc, rfl⟩
    exact ⟨ds, hp, by rw [Except.ok.inj hc]⟩
  · rintro ⟨ds, hp, rfl⟩
    exact ⟨ds, _, hp, rfl, rfl⟩

/-! ### Recursion -/

/-- Two patterns that agree on all texts shorter than `n`. -/
def Below (n : ℕ) (p q : Pattern σ γ ε) : Prop := ∀ s, s.length < n → p.run s = q.run s

theorem Below.refl (n : ℕ) (p : Pattern σ γ ε) : Below n p p := fun _ _ => rfl

theorem below_replace {n : ℕ} {p q : Pattern σ γ ε} (h : Below n p q) (f : List γ → Except ε γ) :
    Below n (replace p f) (replace q f) := by
  intro s hs
  show replaceRun p f s = replaceRun q f s
  rw [replaceRun, replaceRun, h s hs]

theorem below_sequence {n : ℕ} {ps qs : List (Pattern σ γ ε)} (h : List.Forall₂ (Below n) ps qs) :
    Below n (sequence ps) (sequence qs) := by
  induction h with
  | nil => exact .refl n _
  | @cons p q ps qs hpq _ ih =>
    intro s hs
    show sequenceRun (p :: ps) s = sequenceRun (q :: qs) s
    rw [sequenceRun, sequenceRun, ← hpq s hs]
    cases hp : p.run s with
    | fail => rfl
    | raised e => rfl
    | ok cs m =>
      have htail : sequenceRun ps m = sequenceRun qs m := ih m (Nat.lt_of_le_of_lt (Pattern.length_le hp) hs)
      rw [Outcome.bind, Outcome.bind, htail]

theorem below_choice {n : ℕ} {ps qs : List (Pattern σ γ ε)} (h : List.Forall₂ (Below n) ps qs) :
    Below n (choice ps) (choice qs) := by
  intro s hs
  show choiceRun ps s = choiceRun qs s
  induction h with
  | nil => rfl
  | cons hpq _ ih => rw [choiceRun, choiceRun, hpq s hs, ih]

theorem below_any {n : ℕ} {p q : Pattern σ γ ε} (h : Below n p q) : Below n (any p) (any q) := by
  have hrun : ∀ (k : ℕ) (s : List σ), s.length < n → anyRun p k s = anyRun q k s := by
    intro k
    induction k with
    | zero => exact fun _ _ => rfl
    | succ k ih =>
      intro s hs
      rw [anyRun, anyRun, ← h s hs]
      cases hp : p.run s with
      | fail => rfl
      | raised e => rfl
      | ok cs m =>
        dsimp only
        rw [ih m (Nat.lt_of_le_of_lt (Pattern.length_le hp) hs)]
  exact fun s hs => hrun _ s hs

/-- Behind a pattern that takes something, one step more. -/
theorem below_behind {n : ℕ} {p : Pattern σ γ ε} {ps qs : List (Pattern σ γ ε)}
    (hp : ∀ {s cs r}, p.run s = .ok cs r → r.length < s.length) (h : Below n (sequence ps) (sequence qs)) :
    Below (n + 1) (sequence (p :: ps)) (sequence (p :: qs)) := by
  intro s hs
  show sequenceRun (p :: ps) s = sequenceRun (p :: qs) s
  rw [sequenceRun, sequenceRun]
  cases hrun : p.run s with
  | fail => rfl
  | raised e => rfl
  | ok cs m =>
    have htail : sequenceRun ps m = sequenceRun qs m := h m (Nat.lt_of_lt_of_le (hp hrun) (Nat.le_of_lt_succ hs))
    rw [Outcome.bind, Outcome.bind, htail]

/-- The rule `f` uses its argument only behind something that it has taken. -/
def Guarded (f : Pattern σ γ ε → Pattern σ γ ε) : Prop := ∀ n p q, Below n p q → Below (n + 1) (f p) (f q)

def nothing : Pattern σ γ ε := choice []

def unfolded (f : Pattern σ γ ε → Pattern σ γ ε) : ℕ → Pattern σ γ ε
  | 0 => nothing
  | n + 1 => f (unfolded f n)

/-- A rule that refers to itself, unfolded as often as the text can tell. -/
def fix (f : Pattern σ γ ε → Pattern σ γ ε) : Pattern σ γ ε where
  run s := (unfolded f (s.length + 1)).run s
  suffix {s _ _} h := (unfolded f (s.length + 1)).suffix h

theorem unfolded_below {f : Pattern σ γ ε → Pattern σ γ ε} (hf : Guarded f) :
    ∀ {k n m : ℕ}, k ≤ n → k ≤ m → Below k (unfolded f n) (unfolded f m)
  | 0, _, _, _, _ => fun _ hs => absurd hs (Nat.not_lt_zero _)
  | k + 1, _ + 1, _ + 1, hn, hm =>
    hf k _ _ (unfolded_below hf (Nat.le_of_succ_le_succ hn) (Nat.le_of_succ_le_succ hm))

/-- A guarded rule is what it says of itself. -/
theorem fix_run {f : Pattern σ γ ε → Pattern σ γ ε} (hf : Guarded f) (s : List σ) :
    (fix f).run s = (f (fix f)).run s := by
  have hbelow : Below s.length (unfolded f s.length) (fix f) := by
    intro t ht
    exact unfolded_below hf (Nat.succ_le_of_lt ht) (Nat.le_refl _) t (Nat.lt_succ_self _)
  exact hf s.length _ _ hbelow s (Nat.lt_succ_self _)

/-! ### Errors -/

/-- An error of a row comes from its first pattern, or from the others behind what that has taken. -/
theorem sequence_raised_cons {p : Pattern σ γ ε} {ps : List (Pattern σ γ ε)} {s : List σ} {e : ε}
    (h : (sequence (p :: ps)).run s = .raised e) :
    p.run s = .raised e ∨ ∃ cs m, p.run s = .ok cs m ∧ (sequence ps).run m = .raised e := by
  replace h : sequenceRun (p :: ps) s = .raised e := h
  rw [sequenceRun] at h
  cases hp : p.run s with
  | fail => rw [hp] at h; cases h
  | raised e' => rw [hp] at h; exact .inl h
  | ok cs m =>
    refine .inr ⟨cs, m, rfl, ?_⟩
    show sequenceRun ps m = .raised e
    rw [hp, Outcome.bind] at h
    cases hps : sequenceRun ps m with
    | fail => rw [hps] at h; cases h
    | raised e' => rw [hps] at h; exact h
    | ok ds r => rw [hps] at h; cases h

theorem choice_raised_mem {ps : List (Pattern σ γ ε)} {s : List σ} {e : ε} (h : (choice ps).run s = .raised e) :
    ∃ p ∈ ps, p.run s = .raised e := by
  induction ps with
  | nil => cases h
  | cons p ps ih =>
    cases hp : p.run s with
    | fail =>
      obtain ⟨q, hq, hrun⟩ := ih ((choice_next hp).symm.trans h)
      exact ⟨q, List.mem_cons_of_mem p hq, hrun⟩
    | raised e' => exact ⟨p, List.mem_cons_self, hp.trans ((choice_first hp (by simp)).symm.trans h)⟩
    | ok cs r => cases (choice_first hp (by simp)).symm.trans h

theorem raises_of_any {p : Pattern σ γ ε} {e : ε} {s : List σ} (h : (any p).run s = .raised e) : Raises p e s := by
  have hrun : ∀ n s, anyRun p n s = .raised e → Raises p e s := by
    intro n
    induction n with
    | zero => intro s h; cases h
    | succ n ih =>
      intro s h
      rw [anyRun] at h
      cases hp : p.run s with
      | fail => rw [hp] at h; cases h
      | raised e' =>
        rw [hp] at h
        cases h
        exact .here hp
      | ok cs m =>
        rw [hp] at h
        dsimp only at h
        split at h
        · cases h
        · next hne =>
          have hlt : m.length < s.length := Nat.lt_of_le_of_ne (Pattern.length_le hp) hne
          cases hm : anyRun p n m with
          | fail => rw [hm] at h; cases h
          | raised e' =>
            rw [hm] at h
            cases h
            exact .step hp hlt (ih m hm)
          | ok ds r => rw [hm] at h; cases h
  exact hrun _ s h

theorem replace_raised_iff {p : Pattern σ γ ε} {f : List γ → Except ε γ} {s : List σ} {e : ε} :
    (replace p f).run s = .raised e ↔ p.run s = .raised e ∨ ∃ cs r, p.run s = .ok cs r ∧ f cs = .error e := by
  constructor
  · intro h
    replace h : replaceRun p f s = .raised e := h
    rw [replaceRun] at h
    cases hp : p.run s with
    | fail => rw [hp] at h; cases h
    | raised e' => rw [hp] at h; exact .inl h
    | ok cs r =>
      rw [hp, Outcome.bind] at h
      cases hf : f cs with
      | ok c => rw [hf] at h; cases h
      | error e' =>
        rw [hf] at h
        cases h
        exact .inr ⟨cs, r, rfl, hf⟩
  · rintro (h | ⟨cs, r, hp, hf⟩)
    · exact replace_raised h
    · exact replace_error hp hf

/-- The pattern raises no errors. -/
def Quiet (p : Pattern σ γ ε) : Prop := ∀ s e, p.run s ≠ .raised e

theorem quiet_literal [DecidableEq σ] (w : List σ) : Quiet (literal w : Pattern σ γ ε) := by
  intro s e h
  replace h : literalRun w s = .raised e := h
  rw [literalRun] at h
  split at h <;> cases h

theorem quiet_satisfy (f : σ → Bool) : Quiet (satisfy f : Pattern σ γ ε) := by
  intro s e h
  replace h : satisfyRun f s = .raised e := h
  cases s with
  | nil => cases h
  | cons c s =>
    rw [satisfyRun] at h
    split at h <;> cases h

theorem quiet_atEnd : Quiet (atEnd : Pattern σ γ ε) := by
  intro s e h
  cases s <;> cases h

theorem quiet_sequence {ps : List (Pattern σ γ ε)} (hps : ∀ p ∈ ps, Quiet p) : Quiet (sequence ps) := by
  induction ps with
  | nil => intro s e h; cases h
  | cons p ps ih =>
    intro s e h
    rcases sequence_raised_cons h with hp | ⟨cs, m, _, hrest⟩
    · exact hps p List.mem_cons_self s e hp
    · exact ih (fun q hq => hps q (List.mem_cons_of_mem p hq)) m e hrest

theorem quiet_choice {ps : List (Pattern σ γ ε)} (hps : ∀ p ∈ ps, Quiet p) : Quiet (choice ps) := by
  intro s e h
  obtain ⟨p, hp, hrun⟩ := choice_raised_mem h
  exact hps p hp s e hrun

theorem quiet_any {p : Pattern σ γ ε} (hp : Quiet p) : Quiet (any p) := by
  intro s e h
  induction raises_of_any h with
  | here hrun => exact hp _ e hrun
  | step _ _ hrest ih => exact ih (any_raised hrest)

theorem quiet_some {p : Pattern σ γ ε} (hp : Quiet p) : Quiet (some p) := by
  refine quiet_sequence fun q hq => ?_
  rcases List.mem_pair.mp hq with rfl | rfl
  · exact hp
  · exact quiet_any hp

theorem quiet_ifNot {c p : Pattern σ γ ε} (hc : Quiet c) (hp : Quiet p) : Quiet (ifNot c p) := by
  intro s e h
  replace h : ifNotRun c p s = .raised e := h
  rw [ifNotRun] at h
  cases hrun : c.run s with
  | fail => rw [hrun] at h; exact hp s e h
  | raised e' => exact hc s e' hrun
  | ok cs r => rw [hrun] at h; cases h

theorem quiet_thru {p : Pattern σ γ ε} (hp : Quiet p) : Quiet (thru p) := by
  intro s
  induction s with
  | nil => exact hp []
  | cons c s ih =>
    intro e h
    replace h : thruRun p (c :: s) = .raised e := h
    rw [thruRun] at h
    cases hrun : p.run (c :: s) with
    | fail => rw [hrun] at h; exact ih e h
    | raised e' => exact hp _ e' hrun
    | ok cs r => rw [hrun] at h; cases h

theorem quiet_capture {p : Pattern σ γ ε} (hp : Quiet p) (mk : List σ → γ) : Quiet (capture p mk) := by
  intro s e h
  replace h : captureRun p mk s = .raised e := h
  rw [captureRun] at h
  cases hrun : p.run s with
  | fail => rw [hrun] at h; cases h
  | raised e' => exact hp s e' hrun
  | ok cs r => rw [hrun] at h; cases h

/-- What is made of the captures of a match raises no errors either. -/
theorem quiet_replace {p : Pattern σ γ ε} (hp : Quiet p) {f : List γ → Except ε γ}
    (hf : ∀ s cs r, p.run s = .ok cs r → ∃ c, f cs = .ok c) : Quiet (replace p f) := by
  intro s e h
  rcases replace_raised_iff.mp h with hraised | ⟨cs, r, hrun, herror⟩
  · exact hp s e hraised
  · obtain ⟨c, hc⟩ := hf s cs r hrun
    rw [hc] at herror
    cases herror

theorem opt_quiet {p : Pattern σ γ ε} (hp : Quiet p) (s : List σ) : ∃ cs r, (opt p).run s = .ok cs r := by
  show ∃ cs r, optRun p s = .ok cs r
  rw [optRun]
  cases hrun : p.run s with
  | fail => exact ⟨[], s, rfl⟩
  | raised e => exact absurd hrun (hp s e)
  | ok cs r => exact ⟨cs, r, rfl⟩

end Schemes.Peg
