import Mathlib.Data.List.Nodup
import Mathlib.Data.List.Perm.Basic
import Mathlib.Logic.Function.Basic

/-! Intrusive doubly linked lists.

    A node carries its own `next` and `prev` fields and a head cell names the first node. `Repr L q`
    says that the links reachable from the head spell out the sequence `q`. The two operations are
    `push` (link a node in front) and `unlink` (take a node out by rewriting its neighbours). The
    point of the module is what `unlink` does to a node that is *not* in the sequence any more: the
    node still holds its old fields, and `unlink_stale_iff` says exactly when replaying them leaves
    a list with the same members. -/

namespace Schemes.LinkedList

variable {ι : Type*}

/-- The head cell and the two link fields of every node. -/
structure Links (ι : Type*) where
  head : Option ι
  next : ι → Option ι
  prev : ι → Option ι

/-- A doubly linked segment: entered at `cur` coming from `pr`, left towards `cur'` from `pr'`. -/
def Seg (next prev : ι → Option ι) : Option ι → Option ι → List ι → Option ι → Option ι → Prop
  | pr, cur, [], pr', cur' => pr' = pr ∧ cur' = cur
  | pr, cur, p :: l, pr', cur' =>
    cur = some p ∧ prev p = pr ∧ Seg next prev (some p) (next p) l pr' cur'

/-- The links spell out the sequence `q`, front to back, with no node twice. -/
structure Repr (L : Links ι) (q : List ι) : Prop where
  seg : ∃ last, Seg L.next L.prev none L.head q last none
  nodup : q.Nodup

/-! ### Segments -/

theorem seg_append {next prev : ι → Option ι} : ∀ {l₁ l₂ : List ι} {pr cur pr' cur' : Option ι},
    Seg next prev pr cur (l₁ ++ l₂) pr' cur' ↔
      ∃ m c, Seg next prev pr cur l₁ m c ∧ Seg next prev m c l₂ pr' cur'
  | [], l₂, pr, cur, pr', cur' => by simp [Seg]
  | p :: l₁, l₂, pr, cur, pr', cur' => by
    simp only [List.cons_append, Seg, seg_append]
    constructor
    · rintro ⟨hc, hp, m, c, h₁, h₂⟩; exact ⟨m, c, ⟨hc, hp, h₁⟩, h₂⟩
    · rintro ⟨m, c, ⟨hc, hp, h₁⟩, h₂⟩; exact ⟨hc, hp, m, c, h₁, h₂⟩

/-- A segment only depends on the fields of its own nodes. -/
theorem Seg.congr {next prev next' prev' : ι → Option ι} :
    ∀ {l : List ι} {pr cur pr' cur' : Option ι}, Seg next prev pr cur l pr' cur' →
      (∀ x ∈ l, next' x = next x) → (∀ x ∈ l, prev' x = prev x) →
      Seg next' prev' pr cur l pr' cur'
  | [], _, _, _, _, h, _, _ => h
  | p :: l, _, _, _, _, ⟨hc, hp, h⟩, hn, hv => by
    refine ⟨hc, by rw [hv p (by simp)]; exact hp, ?_⟩
    rw [hn p (by simp)]
    exact h.congr (fun x hx => hn x (by simp [hx])) (fun x hx => hv x (by simp [hx]))

/-- The members and the entry point fix the rest: two segments over one sequence agree. -/
theorem Seg.fields_eq {next prev next' prev' : ι → Option ι} :
    ∀ {l : List ι} {pr cur cur₂ la lb : Option ι}, Seg next prev pr cur l la none →
      Seg next' prev' pr cur₂ l lb none →
      cur₂ = cur ∧ ∀ x ∈ l, next' x = next x ∧ prev' x = prev x
  | [], _, _, _, _, _, ⟨_, h⟩, ⟨_, h'⟩ => ⟨by rw [← h, ← h'], by simp⟩
  | p :: l, pr, cur, cur₂, la, lb, ⟨hc, hp, h⟩, ⟨hc', hp', h'⟩ => by
    obtain ⟨hn, hr⟩ := h.fields_eq h'
    refine ⟨by rw [hc, hc'], ?_⟩
    intro x hx
    rcases List.mem_cons.mp hx with rfl | hx
    · exact ⟨hn, by rw [hp, hp']⟩
    · exact hr x hx

/-- Following `next` from a cell visits one sequence only. -/
theorem Seg.unique {next prev prev' : ι → Option ι} :
    ∀ {l l' : List ι} {pr pr₂ cur la lb : Option ι}, Seg next prev pr cur l la none →
      Seg next prev' pr₂ cur l' lb none → l' = l
  | [], [], _, _, _, _, _, _, _ => rfl
  | [], p :: l', _, _, _, _, _, ⟨_, h⟩, ⟨h', _⟩ => by simp [h'] at h
  | p :: l, [], _, _, _, _, _, ⟨h, _⟩, ⟨_, h'⟩ => by simp [h] at h'
  | p :: l, p' :: l', _, _, _, _, _, ⟨hc, _, h⟩, ⟨hc', _, h'⟩ => by
    obtain rfl : p = p' := by rw [hc] at hc'; exact Option.some.inj hc'
    rw [h.unique h']

/-- A suffix of a represented sequence is what `next` visits from its first node. -/
theorem Seg.suffix {next prev : ι → Option ι} {l₁ l₂ : List ι} {x : ι} {pr cur la : Option ι}
    (h : Seg next prev pr cur (l₁ ++ x :: l₂) la none) :
    ∃ m, Seg next prev m (some x) (x :: l₂) la none := by
  obtain ⟨m, c, _, h₂⟩ := seg_append.mp h
  have hc : c = some x := h₂.1
  exact ⟨m, by rw [← hc]; exact h₂⟩

/-- A node of a represented sequence, and a sequence with the same members visited from it, mean
    the node was the front one. -/
theorem Seg.eq_of_perm {next prev prev' : ι → Option ι} {q q' : List ι} {x : ι}
    {pr pr' cur la lb : Option ι} (hs : Seg next prev pr cur q la none) (hx : x ∈ q)
    (hs' : Seg next prev' pr' (some x) q' lb none) (hp : q'.Perm q) : q' = q := by
  obtain ⟨l₁, l₂, rfl⟩ := List.append_of_mem hx
  obtain ⟨_, hsuf⟩ := hs.suffix
  obtain rfl : q' = x :: l₂ := hsuf.unique hs'
  have hlen := hp.length_eq
  have : l₁ = [] := by
    rw [List.length_append] at hlen
    exact List.length_eq_zero_iff.mp (by omega)
  simp [this]

/-! ### Represented sequences -/

theorem Repr.nil_iff {L : Links ι} : Repr L [] ↔ L.head = none := by
  constructor
  · rintro ⟨⟨_, _, h⟩, _⟩; exact h.symm
  · intro h; exact ⟨⟨none, rfl, h.symm⟩, List.nodup_nil⟩

theorem Repr.head_eq {L : Links ι} : ∀ {q : List ι}, Repr L q → L.head = q.head?
  | [], h => Repr.nil_iff.mp h
  | _ :: _, ⟨⟨_, h, _⟩, _⟩ => h

theorem Repr.ne_nil_iff {L : Links ι} {q : List ι} (h : Repr L q) : q ≠ [] ↔ L.head ≠ none := by
  rw [h.head_eq]; cases q <;> simp

/-- One link structure represents at most one sequence. -/
theorem Repr.unique {L : Links ι} {q q' : List ι} (h : Repr L q) (h' : Repr L q') : q' = q := by
  obtain ⟨⟨_, hs⟩, _⟩ := h
  obtain ⟨⟨_, hs'⟩, _⟩ := h'
  exact hs.unique hs'

theorem Repr.eq_singleton {L : Links ι} {q : List ι} {p : ι} (h : Repr L q) (hh : L.head = some p)
    (hn : L.next p = none) : q = [p] := by
  obtain ⟨⟨_, hs⟩, _⟩ := h
  rw [hh] at hs
  have h₁ : Seg L.next L.prev (L.prev p) (some p) [p] (some p) none := ⟨rfl, rfl, rfl, hn.symm⟩
  exact h₁.unique hs

theorem Repr.congr {L L' : Links ι} {q : List ι} (h : Repr L q) (hh : L'.head = L.head)
    (hn : ∀ x ∈ q, L'.next x = L.next x) (hv : ∀ x ∈ q, L'.prev x = L.prev x) : Repr L' q := by
  obtain ⟨⟨la, hs⟩, hnd⟩ := h
  exact ⟨⟨la, by rw [hh]; exact hs.congr hn hv⟩, hnd⟩

theorem Repr.fields_eq {L L' : Links ι} {q : List ι} (h : Repr L q) (h' : Repr L' q) :
    L'.head = L.head ∧ ∀ x ∈ q, L'.next x = L.next x ∧ L'.prev x = L.prev x := by
  obtain ⟨⟨_, hs⟩, _⟩ := h
  obtain ⟨⟨_, hs'⟩, _⟩ := h'
  exact hs.fields_eq hs'

/-- The successor and predecessor fields of a member are its neighbours in the sequence. -/
theorem Repr.fields_at {L : Links ι} {l₁ l₂ : List ι} {p : ι} (h : Repr L (l₁ ++ p :: l₂)) :
    L.next p = l₂.head? ∧ (L.prev p = none ↔ l₁ = []) ∧ ∀ a, L.prev p = some a → a ∈ l₁ := by
  obtain ⟨⟨la, hs⟩, _⟩ := h
  obtain ⟨m, c, h₁, _, hp, h₂⟩ := seg_append.mp hs
  have hnext : L.next p = l₂.head? := by
    cases l₂ with
    | nil => exact h₂.2.symm
    | cons b l₂ => exact h₂.1
  have hlast : ∀ {l : List ι} {pr cur m c : Option ι}, Seg L.next L.prev pr cur l m c →
      (l = [] → m = pr) ∧ (l ≠ [] → ∃ a ∈ l, m = some a) := by
    intro l
    induction l with
    | nil => intro pr cur m c h; exact ⟨fun _ => h.1, fun h => absurd rfl h⟩
    | cons b l ih =>
      rintro pr cur m c ⟨_, _, h⟩
      refine ⟨fun h => by simp at h, fun _ => ?_⟩
      rcases eq_or_ne l [] with rfl | hl
      · exact ⟨b, by simp, h.1⟩
      · obtain ⟨a, ha, hm⟩ := (ih h).2 hl
        exact ⟨a, by simp [ha], hm⟩
  refine ⟨hnext, ?_, ?_⟩
  · rw [hp]
    constructor
    · intro hm
      by_contra hne
      obtain ⟨a, _, ha⟩ := (hlast h₁).2 hne
      rw [hm] at ha; simp at ha
    · exact (hlast h₁).1
  · intro a ha
    rw [hp] at ha
    rcases eq_or_ne l₁ [] with h | hne
    · rw [(hlast h₁).1 h] at ha; simp at ha
    · obtain ⟨b, hb, hm⟩ := (hlast h₁).2 hne
      rw [hm] at ha; obtain rfl := Option.some.inj ha; exact hb

/-! ### Walking the list -/

/-- The nodes visited from `cur` by following `next`, at most `n` of them. -/
def walk (next : ι → Option ι) : ℕ → Option ι → List ι
  | 0, _ => []
  | _ + 1, none => []
  | n + 1, some p => p :: walk next n (next p)

theorem walk_length (next : ι → Option ι) : ∀ (n : ℕ) (cur : Option ι),
    (walk next n cur).length ≤ n
  | 0, _ => Nat.le_refl _
  | _ + 1, none => Nat.zero_le _
  | n + 1, some p => Nat.succ_le_succ (walk_length next n (next p))

theorem Seg.walk_eq {next prev : ι → Option ι} :
    ∀ {l : List ι} {pr cur la : Option ι} {n : ℕ}, Seg next prev pr cur l la none → l.length ≤ n →
      walk next n cur = l
  | [], _, _, _, n, ⟨_, h⟩, _ => by subst h; cases n <;> rfl
  | p :: l, _, _, _, 0, _, hn => by simp at hn
  | p :: l, _, _, _, n + 1, ⟨hc, _, h⟩, hn => by
    rw [hc, walk, h.walk_eq (by simpa using hn)]

theorem Repr.walk_eq {L : Links ι} {q : List ι} {n : ℕ} (h : Repr L q) (hn : q.length ≤ n) :
    walk L.next n L.head = q := by
  obtain ⟨⟨_, hs⟩, _⟩ := h
  exact hs.walk_eq hn

/-! ### The two operations -/

variable [DecidableEq ι]

/-- Link `p` in front of the sequence. -/
def Links.push (L : Links ι) (p : ι) : Links ι where
  head := some p
  next := Function.update L.next p L.head
  prev :=
    match L.head with
    | none => Function.update L.prev p none
    | some h => Function.update (Function.update L.prev p none) h (some p)

/-- Take `p` out by rewriting whatever its own fields name. With an empty head nothing happens. -/
def Links.unlink (L : Links ι) (p : ι) : Links ι :=
  if L.head = none then L
  else
    { head := if L.prev p = none then L.next p else L.head
      next := match L.prev p with
        | none => L.next
        | some a => Function.update L.next a (L.next p)
      prev := match L.next p with
        | none => L.prev
        | some b => Function.update L.prev b (L.prev p) }

section fields
variable {L : Links ι} {p : ι} (hh : L.head ≠ none)
include hh

theorem unlink_head : (L.unlink p).head = if L.prev p = none then L.next p else L.head := by
  rw [Links.unlink, if_neg hh]

theorem unlink_next_none (hp : L.prev p = none) : (L.unlink p).next = L.next := by
  rw [Links.unlink, if_neg hh]; simp only [hp]

theorem unlink_next_some {a : ι} (hp : L.prev p = some a) :
    (L.unlink p).next = Function.update L.next a (L.next p) := by
  rw [Links.unlink, if_neg hh]; simp only [hp]

theorem unlink_prev_none (hp : L.next p = none) : (L.unlink p).prev = L.prev := by
  rw [Links.unlink, if_neg hh]; simp only [hp]

theorem unlink_prev_some {b : ι} (hp : L.next p = some b) :
    (L.unlink p).prev = Function.update L.prev b (L.prev p) := by
  rw [Links.unlink, if_neg hh]; simp only [hp]

end fields

theorem Repr.push {L : Links ι} {q : List ι} {p : ι} (h : Repr L q) (hp : p ∉ q) :
    Repr (L.push p) (p :: q) := by
  have hnd : (p :: q).Nodup := List.nodup_cons.mpr ⟨hp, h.nodup⟩
  refine ⟨?_, hnd⟩
  obtain ⟨⟨la, hs⟩, hq⟩ := h
  cases q with
  | nil =>
    have hh : L.head = none := hs.2.symm
    refine ⟨some p, rfl, ?_, rfl, ?_⟩
    · simp [Links.push, hh]
    · simp [Links.push, hh]
  | cons b q =>
    obtain ⟨hb, _, hs⟩ := hs
    have hne : p ≠ b := fun e => hp (by simp [e])
    have hbq : b ∉ q := (List.nodup_cons.mp hq).1
    refine ⟨la, rfl, ?_, ?_, ?_, ?_⟩
    · simp [Links.push, hb, hne]
    · simp [Links.push, hb]
    · simp [Links.push, hb]
    · have hpb : Function.update L.next p L.head b = L.next b := by
        rw [Function.update_of_ne hne.symm]
      simp only [Links.push]
      rw [hpb]
      refine hs.congr ?_ ?_
      · intro x hx
        rw [Function.update_of_ne]
        rintro rfl; exact hp (by simp [hx])
      · intro x hx
        have hxb : x ≠ b := by rintro rfl; exact hbq hx
        have hxp : x ≠ p := by rintro rfl; exact hp (by simp [hx])
        simp [hb, hxb, hxp]

/-- `push` leaves the links of every node alone that is neither pushed nor the old head. -/
theorem push_frame (L : Links ι) {p x : ι} (hx : x ≠ p) (hh : L.head ≠ some x) :
    (L.push p).next x = L.next x ∧ (L.push p).prev x = L.prev x := by
  refine ⟨by simp [Links.push, hx], ?_⟩
  cases hL : L.head with
  | none => simp [Links.push, hL, hx]
  | some h =>
    have : x ≠ h := by rintro rfl; exact hh hL
    simp [Links.push, hL, hx, this]

/-- Redirecting the last node of a segment moves its exit. -/
theorem Seg.redirect {next prev : ι → Option ι} {a : ι} {c d : Option ι} :
    ∀ {l : List ι} {pr cur : Option ι}, Seg next prev pr cur l (some a) c → l ≠ [] → l.Nodup →
      Seg (Function.update next a d) prev pr cur l (some a) d
  | [p], pr, cur, ⟨hc, hp, hm, _⟩, _, _ => by
    obtain rfl := Option.some.inj hm
    exact ⟨hc, hp, rfl, by simp⟩
  | p :: b :: l, pr, cur, ⟨hc, hp, h⟩, _, hnd => by
    have hrec := Seg.redirect (d := d) h (by simp) (List.nodup_cons.mp hnd).2
    have hmem : ∀ {l : List ι} {pr cur : Option ι}, Seg next prev pr cur l (some a) c → l ≠ [] →
        a ∈ l := by
      intro l
      induction l with
      | nil => intro _ _ _ h; exact absurd rfl h
      | cons x l ih =>
        rintro _ _ ⟨_, _, hx⟩ _
        rcases eq_or_ne l [] with rfl | hl
        · obtain rfl := Option.some.inj hx.1; simp
        · exact List.mem_cons_of_mem _ (ih hx hl)
    have hpa : p ≠ a := by
      rintro rfl
      exact (List.nodup_cons.mp hnd).1 (hmem h (by simp))
    exact ⟨hc, hp, by rw [Function.update_of_ne hpa]; exact hrec⟩

/-- Changing the predecessor of the first node changes where a segment is entered from. -/
theorem Seg.reenter {next prev : ι → Option ι} {pr cur la c : Option ι} {b : ι} {l : List ι}
    (h : Seg next prev pr cur (b :: l) la c) (hb : b ∉ l) (pr' : Option ι) :
    Seg next (Function.update prev b pr') pr' cur (b :: l) la c := by
  obtain ⟨hc, _, h⟩ := h
  refine ⟨hc, by simp, h.congr (fun _ _ => rfl) ?_⟩
  intro x hx
  rw [Function.update_of_ne]
  rintro rfl; exact hb hx

/-- Unlinking a member removes it and keeps the order of the others. -/
theorem Repr.unlink {L : Links ι} {q : List ι} {p : ι} (h : Repr L q) (hp : p ∈ q) :
    Repr (L.unlink p) (q.erase p) := by
  obtain ⟨l₁, l₂, rfl⟩ := List.append_of_mem hp
  have hnd := h.nodup
  have hp₁ : p ∉ l₁ := fun hx => (List.nodup_append.mp hnd).2.2 p hx p (by simp) rfl
  have hdis : ∀ x ∈ l₁, x ∉ l₂ := fun x hx hx' =>
    (List.nodup_append.mp hnd).2.2 x hx x (by simp [hx']) rfl
  have hnd₁ : l₁.Nodup := (List.nodup_append.mp hnd).1
  have hnd₂ : l₂.Nodup := (List.nodup_cons.mp (List.nodup_append.mp hnd).2.1).2
  have hhead : L.head ≠ none := h.ne_nil_iff.mp (by simp)
  obtain ⟨⟨la, hs⟩, _⟩ := h
  obtain ⟨m, c, h₁, hc, hprev, h₂⟩ := seg_append.mp hs
  have herase : (l₁ ++ p :: l₂).erase p = l₁ ++ l₂ := by
    rw [List.erase_append_right _ hp₁, List.erase_cons_head]
  rw [herase]
  refine ⟨?_, hnd.sublist (by simp)⟩
  -- the part behind `p`, entered from `p`'s predecessor
  have back : ∃ la', Seg L.next (L.unlink p).prev m (L.next p) l₂ la' none := by
    cases l₂ with
    | nil =>
      have hn : L.next p = none := h₂.2.symm
      exact ⟨m, rfl, hn.symm⟩
    | cons b l₂ =>
      have hn : L.next p = some b := h₂.1
      refine ⟨la, ?_⟩
      have := h₂.reenter (List.nodup_cons.mp hnd₂).1 m
      simpa [Links.unlink, hhead, hn, hprev] using this
  obtain ⟨la', back⟩ := back
  have hprev₁ : ∀ x ∈ l₁, (L.unlink p).prev x = L.prev x := by
    intro x hx
    cases hn : L.next p with
    | none => simp [Links.unlink, hhead, hn]
    | some b =>
      have hb : b ∈ l₂ := by
        cases l₂ with
        | nil => have := h₂.2; rw [hn] at this; simp at this
        | cons b' l₂ =>
          have := h₂.1; rw [hn] at this
          obtain rfl := Option.some.inj this; simp
      have : x ≠ b := by rintro rfl; exact hdis x hx hb
      simp [Links.unlink, hhead, hn, this]
  refine ⟨la', seg_append.mpr ⟨m, L.next p, ?_, ?_⟩⟩
  · cases l₁ with
    | nil =>
      obtain ⟨rfl, rfl⟩ := h₁
      exact ⟨rfl, by simp [Links.unlink, hhead, hprev]⟩
    | cons x l₁ =>
      obtain ⟨a, rfl⟩ : ∃ a, m = some a := by
        have hr : Repr L ((x :: l₁) ++ p :: l₂) := ⟨⟨la, hs⟩, hnd⟩
        have := hr.fields_at.2.1
        rw [hprev] at this
        rcases m with _ | a
        · exact absurd (this.mp rfl) (by simp)
        · exact ⟨a, rfl⟩
      have h₁' := Seg.redirect (d := L.next p) h₁ (by simp) hnd₁
      have hh : (L.unlink p).head = L.head := by simp [Links.unlink, hhead, hprev]
      have hnx : (L.unlink p).next = Function.update L.next a (L.next p) := by
        simp [Links.unlink, hhead, hprev]
      rw [hh, hnx]
      exact h₁'.congr (fun _ _ => rfl) hprev₁
  · refine back.congr ?_ (fun _ _ => rfl)
    intro x hx
    rcases m with _ | a
    · simp [Links.unlink, hhead, hprev]
    · have ha : a ∈ l₁ := by
        have hr : Repr L (l₁ ++ p :: l₂) := ⟨⟨la, hs⟩, hnd⟩
        exact hr.fields_at.2.2 a hprev
      have : x ≠ a := by rintro rfl; exact hdis x ha hx
      simp [Links.unlink, hhead, hprev, this]

/-- Unlinking writes nothing to a node other than the two neighbours `p` names. -/
theorem unlink_frame (L : Links ι) {p x : ι} (hn : L.next p ≠ some x) (hv : L.prev p ≠ some x) :
    (L.unlink p).next x = L.next x ∧ (L.unlink p).prev x = L.prev x := by
  by_cases hh : L.head = none
  · simp [Links.unlink, hh]
  · constructor
    · cases hp : L.prev p with
      | none => simp [Links.unlink, hh, hp]
      | some a =>
        have : x ≠ a := by rintro rfl; exact hv hp
        simp [Links.unlink, hh, hp, this]
    · cases hp : L.next p with
      | none => simp [Links.unlink, hh, hp]
      | some b =>
        have : x ≠ b := by rintro rfl; exact hn hp
        simp [Links.unlink, hh, hp, this]

/-- `p` keeps its own two fields through its unlinking. -/
theorem unlink_self (L : Links ι) (p : ι) :
    (L.unlink p).next p = L.next p ∧ (L.unlink p).prev p = L.prev p := by
  by_cases hh : L.head = none
  · simp [Links.unlink, hh]
  · constructor
    · cases hp : L.prev p with
      | none => rw [unlink_next_none hh hp]
      | some a =>
        rw [unlink_next_some hh hp]
        by_cases hpa : p = a
        · rw [← hpa, Function.update_self]
        · rw [Function.update_of_ne hpa]
    · cases hp : L.next p with
      | none => rw [unlink_prev_none hh hp]
      | some b =>
        rw [unlink_prev_some hh hp]
        by_cases hpb : p = b
        · rw [← hpb, Function.update_self]
        · rw [Function.update_of_ne hpb]

/-- Replaying an unlink at once changes nothing more. -/
theorem unlink_unlink (L : Links ι) (p : ι) : (L.unlink p).unlink p = L.unlink p := by
  obtain ⟨hn, hv⟩ := unlink_self L p
  by_cases hh : L.head = none
  · simp [Links.unlink, hh]
  by_cases hh' : (L.unlink p).head = none
  · rw [Links.unlink, if_pos hh']
  rw [Links.unlink, if_neg hh', hn, hv]
  cases hp : L.prev p <;> cases hq : L.next p <;> simp [Links.unlink, hh, hp, hq]

/-! ### Unlinking a node that has left the sequence -/

/-- What the stale fields of `p` would write over the members of `q` is what stands there. -/
structure Harmless (L : Links ι) (q : List ι) (p : ι) : Prop where
  head : L.prev p = none → L.head = L.next p
  next : ∀ a ∈ q, L.prev p = some a → L.next a = L.next p
  prev : ∀ b ∈ q, L.next p = some b → L.prev b = L.prev p

theorem Repr.unlink_stale {L : Links ι} {q : List ι} {p : ι} (h : Repr L q)
    (hok : q = [] ∨ Harmless L q p) : Repr (L.unlink p) q := by
  rcases hok with rfl | ⟨hhd, hnx, hpv⟩
  · rw [Links.unlink, if_pos (Repr.nil_iff.mp h)]; exact h
  by_cases hh : L.head = none
  · rw [Links.unlink, if_pos hh]; exact h
  refine h.congr ?_ ?_ ?_
  · rw [unlink_head hh]
    by_cases hp : L.prev p = none
    · rw [if_pos hp, hhd hp]
    · rw [if_neg hp]
  · intro x hx
    cases hp : L.prev p with
    | none => simp [Links.unlink, hh, hp]
    | some a =>
      by_cases hxa : x = a
      · subst hxa; simp [Links.unlink, hh, hp, hnx x hx hp]
      · simp [Links.unlink, hh, hp, hxa]
  · intro x hx
    cases hp : L.next p with
    | none => simp [Links.unlink, hh, hp]
    | some b =>
      by_cases hxb : x = b
      · subst hxb; simp [Links.unlink, hh, hp, hpv x hx hp]
      · simp [Links.unlink, hh, hp, hxb]

/-- If any list with the same members is left, it is the same sequence. -/
theorem Repr.unlink_stale_seq {L : Links ι} {q q' : List ι} {p : ι} (h : Repr L q)
    (h' : Repr (L.unlink p) q') (hm : ∀ x, x ∈ q' ↔ x ∈ q) : q' = q := by
  have hperm : q'.Perm q := (List.perm_ext_iff_of_nodup h'.nodup h.nodup).mpr hm
  by_cases hh : L.head = none
  · rw [Links.unlink, if_pos hh] at h'; exact h.unique h'
  obtain ⟨⟨la, hs⟩, hnd⟩ := h
  obtain ⟨⟨lb, hs'⟩, hnd'⟩ := h'
  rcases q with _ | ⟨h₀, q⟩
  · simpa using hperm
  rcases q' with _ | ⟨h₁, q'⟩
  · simp at hperm
  cases hp : L.prev p with
  | none =>
    -- only the head cell and one `prev` were written
    have hnx : (L.unlink p).next = L.next := by simp [Links.unlink, hh, hp]
    rw [hnx] at hs'
    have hh₁ : (L.unlink p).head = some h₁ := hs'.1
    rw [hh₁] at hs'
    exact hs.eq_of_perm ((hm h₁).mp (by simp)) hs' hperm
  | some a =>
    have hhd : (L.unlink p).head = L.head := by simp [Links.unlink, hh, hp]
    have hnx : (L.unlink p).next = Function.update L.next a (L.next p) := by
      simp [Links.unlink, hh, hp]
    rw [hhd, hnx] at hs'
    by_cases ha : a ∈ h₀ :: q
    · -- the two sequences agree up to `a`; behind it the new one starts at `L.next p`
      obtain ⟨l₁, l₂, hq⟩ := List.append_of_mem ha
      rw [hq] at hs hnd hm hperm ⊢
      obtain ⟨m, c, f₁, hc, hpa, f₂⟩ := seg_append.mp hs
      have hal₁ : a ∉ l₁ := fun hx => (List.nodup_append.mp hnd).2.2 a hx a (by simp) rfl
      have split : ∃ l₂', h₁ :: q' = l₁ ++ a :: l₂' ∧
          Seg (Function.update L.next a (L.next p)) (L.unlink p).prev (some a) (L.next p) l₂' lb
            none := by
        have walk : ∀ {l : List ι} {pr pr' cur m : Option ι} {q' : List ι},
            Seg L.next L.prev pr cur l m (some a) → a ∉ l →
            Seg (Function.update L.next a (L.next p)) (L.unlink p).prev pr' cur q' lb none →
            ∃ l₂', q' = l ++ a :: l₂' ∧ Seg (Function.update L.next a (L.next p))
              (L.unlink p).prev (some a) (L.next p) l₂' lb none := by
          intro l
          induction l with
          | nil =>
            rintro pr pr' cur m q' ⟨_, hcur⟩ _ hw
            rw [← hcur] at hw
            rcases q' with _ | ⟨x, q'⟩
            · simp [Seg] at hw
            · obtain ⟨hx, _, hw⟩ := hw
              obtain rfl := Option.some.inj hx
              exact ⟨q', rfl, by simpa using hw⟩
          | cons y l ih =>
            rintro pr pr' cur m q' ⟨hcur, _, hl⟩ hal hw
            rw [hcur] at hw
            rcases q' with _ | ⟨x, q'⟩
            · simp [Seg] at hw
            · obtain ⟨hx, _, hw⟩ := hw
              obtain rfl := Option.some.inj hx
              have hya : y ≠ a := by rintro rfl; exact hal (by simp)
              rw [Function.update_of_ne hya] at hw
              obtain ⟨l₂', rfl, hrest⟩ := ih hl (fun hx => hal (by simp [hx])) hw
              exact ⟨l₂', rfl, hrest⟩
        exact walk (hc ▸ f₁) hal₁ hs'
      obtain ⟨l₂', hq', g₂⟩ := split
      rw [hq'] at hperm hnd' ⊢
      have hp₂ : l₂'.Perm l₂ :=
        ((List.perm_append_left_iff l₁).mp hperm).cons_inv
      have hal₂ : a ∉ l₂' := (List.nodup_cons.mp (List.nodup_append.mp hnd').2.1).1
      have g₂' : Seg L.next (L.unlink p).prev (some a) (L.next p) l₂' lb none := by
        refine g₂.congr ?_ (fun _ _ => rfl)
        intro x hx
        rw [Function.update_of_ne]
        rintro rfl; exact hal₂ hx
      have hl₂ : l₂' = l₂ := by
        rcases l₂' with _ | ⟨x, l₂'⟩
        · simpa using hp₂.symm
        · have hx : L.next p = some x := g₂'.1
          rw [hx] at g₂'
          exact f₂.eq_of_perm (hp₂.mem_iff.mp (by simp)) g₂' hp₂
      rw [hl₂]
    · have hs'' : Seg L.next (L.unlink p).prev none L.head (h₁ :: q') lb none := by
        refine hs'.congr ?_ (fun _ _ => rfl)
        intro x hx
        rw [Function.update_of_ne]
        rintro rfl; exact ha ((hm x).mp hx)
      exact hs.unique hs''

/-- A stale unlink leaves a list with the same members exactly when it writes nothing new. -/
theorem unlink_stale_iff {L : Links ι} {q : List ι} {p : ι} (h : Repr L q) :
    (∃ q', Repr (L.unlink p) q' ∧ ∀ x, x ∈ q' ↔ x ∈ q) ↔ q = [] ∨ Harmless L q p := by
  constructor
  · rintro ⟨q', h', hm⟩
    by_cases hh : L.head = none
    · exact Or.inl (by by_contra hne; exact h.ne_nil_iff.mp hne hh)
    right
    obtain rfl := h.unlink_stale_seq h' hm
    obtain ⟨hhd, hf⟩ := h.fields_eq h'
    refine ⟨?_, ?_, ?_⟩
    · intro hp
      rw [← hhd]; simp [Links.unlink, hh, hp]
    · intro a ha hp
      rw [← (hf a ha).1]; simp [Links.unlink, hh, hp]
    · intro b hb hp
      rw [← (hf b hb).2]; simp [Links.unlink, hh, hp]
  · intro hok
    exact ⟨q, h.unlink_stale hok, fun _ => Iff.rfl⟩

end Schemes.LinkedList
