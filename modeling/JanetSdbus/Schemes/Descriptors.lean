import Mathlib.Data.List.Nodup
import Mathlib.Logic.Function.Basic

/-! A table of descriptors, and who owns them.

    A descriptor is a number that refers to something as long as it is open; numbers that were closed
    are given out again. It is safe to close one if each open descriptor has one owner, and only owners
    close (`Owns`): then no number is closed twice, and none that somebody else uses by now. -/

namespace Schemes.Descriptors
variable {ι δ : Type*} {t : ℕ → Option δ} {k : ℕ} {f : δ}

/-! ### Tables -/

def openAll (t : ℕ → Option δ) : List (ℕ × δ) → ℕ → Option δ
  | [] => t
  | kf :: new => openAll (Function.update t kf.1 (some kf.2)) new

/-- `close` answers EBADF for a number that is not open. -/
def closeAll (t : ℕ → Option δ) (fault : Bool) : List ℕ → (ℕ → Option δ) × Bool
  | [] => (t, fault)
  | k :: old => closeAll (Function.update t k none) (fault || (t k).isNone) old

/-- Numbers that are not in use, each once. -/
structure Free (t : ℕ → Option δ) (ks : List ℕ) : Prop where
  nodup : ks.Nodup
  unused : ∀ k ∈ ks, t k = none

theorem openAll_other {new : List (ℕ × δ)} (hk : k ∉ new.map Prod.fst) : openAll t new k = t k := by
  induction new generalizing t with
  | nil => rfl
  | cons kf new ih =>
    rw [List.map_cons, List.mem_cons, not_or] at hk
    rw [openAll, ih hk.2, Function.update_of_ne hk.1]

theorem openAll_new {new : List (ℕ × δ)} (hnodup : (new.map Prod.fst).Nodup) (hmem : (k, f) ∈ new) :
    openAll t new k = some f := by
  induction new generalizing t with
  | nil => cases hmem
  | cons kf new ih =>
    rw [List.map_cons, List.nodup_cons] at hnodup
    rcases List.mem_cons.mp hmem with rfl | hmem
    · rw [openAll, openAll_other hnodup.1, Function.update_self]
    · rw [openAll, ih hnodup.2 hmem]

theorem closeAll_fst {fault : Bool} {old : List ℕ} :
    (closeAll t fault old).1 k = if k ∈ old then none else t k := by
  induction old generalizing t fault with
  | nil => rfl
  | cons k' old ih =>
    rw [closeAll, ih]
    by_cases hk : k = k'
    · subst hk
      rw [Function.update_self, ite_self, if_pos List.mem_cons_self]
    · rw [Function.update_of_ne hk]
      simp only [List.mem_cons, hk, false_or]

/-- Open numbers can be closed, each once. -/
theorem closeAll_snd {fault : Bool} {old : List ℕ} (hnodup : old.Nodup) (hopen : ∀ k ∈ old, t k ≠ none) :
    (closeAll t fault old).2 = fault := by
  induction old generalizing t fault with
  | nil => rfl
  | cons k old ih =>
    rw [List.nodup_cons] at hnodup
    have hk : (t k).isNone = false := Option.isNone_eq_false_iff.mpr (Option.isSome_iff_ne_none.mpr (hopen k List.mem_cons_self))
    rw [closeAll, hk, Bool.or_false]
    refine ih hnodup.2 fun k' hk' => ?_
    have hne : k' ≠ k := by
      rintro rfl
      exact hnodup.1 hk'
    rw [Function.update_of_ne hne]
    exact hopen k' (List.mem_cons_of_mem k hk')

/-! ### Owners -/

variable {d d' : ι → Option (ℕ × δ)}

/-- What is open is what is owned, and nothing has two owners. -/
structure Owns (t : ℕ → Option δ) (d : ι → Option (ℕ × δ)) : Prop where
  opened : ∀ k f, t k = some f ↔ ∃ o, d o = some (k, f)
  once : ∀ o o' k f f', d o = some (k, f) → d o' = some (k, f') → o = o'

theorem Owns.at (h : Owns t d) {o : ι} (ho : d o = some (k, f)) : t k = some f := (h.opened k f).mpr ⟨o, ho⟩

theorem Owns.nothing : Owns (fun _ => (none : Option δ)) fun _ : ι => none :=
  ⟨fun _ _ => ⟨fun h => (by cases h), fun ⟨_, h⟩ => (by cases h)⟩, fun _ _ _ _ _ h => by cases h⟩

theorem Owns.congr (h : Owns t d) (hd : ∀ o, d' o = d o) : Owns t d' := by
  obtain rfl : d' = d := funext hd
  exact h

/-- New descriptors go to owners that had none. -/
theorem Owns.open (h : Owns t d) (new : List (ℕ × δ)) (owner : ℕ → ι) (hfree : Free t (new.map Prod.fst))
    (hnone : ∀ i, d (owner i) = none) (hnew : ∀ i, d' (owner i) = new[i]?)
    (hold : ∀ o, (∀ i, o ≠ owner i) → d' o = d o) : Owns (openAll t new) d' := by
  have hcases : ∀ {o : ι} {kf : ℕ × δ}, d' o = some kf → (∃ i, o = owner i ∧ new[i]? = some kf) ∨ d o = some kf := by
    intro o kf ho
    by_cases hex : ∃ i, o = owner i
    · obtain ⟨i, rfl⟩ := hex
      exact .inl ⟨i, rfl, (hnew i).symm.trans ho⟩
    · exact .inr ((hold o fun i hi => hex ⟨i, hi⟩).symm.trans ho)
  have hamong : ∀ {i k : ℕ} {f : δ}, new[i]? = some (k, f) → k ∈ new.map Prod.fst :=
    fun hi => List.mem_map.mpr ⟨_, List.mem_of_getElem? hi, rfl⟩
  have hfresh : ∀ {o : ι} {k : ℕ} {f : δ}, d o = some (k, f) → k ∉ new.map Prod.fst := by
    intro o k f ho hmem
    have hused := h.at ho
    rw [hfree.unused _ hmem] at hused
    cases hused
  have hkept : ∀ {o : ι} {kf : ℕ × δ}, d o = some kf → d' o = some kf := by
    intro o kf ho
    refine (hold o fun i hi => ?_).trans ho
    rw [hi, hnone i] at ho
    cases ho
  constructor
  · intro k f
    by_cases hk : k ∈ new.map Prod.fst
    · obtain ⟨⟨k', f'⟩, hmem, rfl⟩ := List.mem_map.mp hk
      rw [openAll_new hfree.nodup hmem]
      constructor
      · rintro ⟨⟩
        obtain ⟨i, hi⟩ := List.mem_iff_getElem?.mp hmem
        exact ⟨owner i, (hnew i).trans hi⟩
      · rintro ⟨o, ho⟩
        rcases hcases ho with ⟨i, -, hi⟩ | ho
        · exact congrArg some (congrArg Prod.snd (List.inj_on_of_nodup_map hfree.nodup hmem (List.mem_of_getElem? hi) rfl))
        · exact absurd hk (hfresh ho)
    · rw [openAll_other hk, h.opened]
      constructor
      · rintro ⟨o, ho⟩
        exact ⟨o, hkept ho⟩
      · rintro ⟨o, ho⟩
        rcases hcases ho with ⟨i, -, hi⟩ | ho
        · exact absurd (hamong hi) hk
        · exact ⟨o, ho⟩
  · intro o o' k f f' ho ho'
    rcases hcases ho with ⟨i, rfl, hi⟩ | ho
    · rcases hcases ho' with ⟨i', rfl, hi'⟩ | ho'
      · -- the same number stands at the same place
        have hkey : (new.map Prod.fst)[i]? = some k := by rw [List.getElem?_map, hi]; rfl
        have hkey' : (new.map Prod.fst)[i']? = some k := by rw [List.getElem?_map, hi']; rfl
        have hlt := (List.getElem?_eq_some_iff.mp hkey).1
        rw [(List.getElem?_inj hlt hfree.nodup).mp (hkey.trans hkey'.symm)]
      · exact absurd (hamong hi) (hfresh ho')
    · rcases hcases ho' with ⟨i', rfl, hi'⟩ | ho'
      · exact absurd (hamong hi') (hfresh ho)
      · exact h.once o o' k f f' ho ho'

/-- Some owners close all that they have. -/
theorem Owns.close (h : Owns t d) {P : ι → Prop} {old : List ℕ} {fault : Bool}
    (hold : ∀ k, k ∈ old ↔ ∃ o f, P o ∧ d o = some (k, f)) (hgone : ∀ o, P o → d' o = none)
    (hkept : ∀ o, ¬ P o → d' o = d o) : Owns (closeAll t fault old).1 d' := by
  have hcases : ∀ {o : ι} {kf : ℕ × δ}, d' o = some kf ↔ ¬ P o ∧ d o = some kf := by
    intro o kf
    by_cases ho : P o
    · rw [hgone o ho]
      exact ⟨fun hn => (by cases hn), fun hn => absurd ho hn.1⟩
    · rw [hkept o ho]
      exact ⟨fun hd => ⟨ho, hd⟩, And.right⟩
  constructor
  · intro k f
    rw [closeAll_fst]
    split
    · next hk =>
      obtain ⟨o, f', hP, ho⟩ := (hold k).mp hk
      constructor
      · intro hn
        cases hn
      · rintro ⟨o', ho'⟩
        obtain ⟨hP', ho'⟩ := hcases.mp ho'
        exact absurd (h.once o o' k f' f ho ho' ▸ hP) hP'
    · next hk =>
      rw [h.opened]
      constructor
      · rintro ⟨o, ho⟩
        exact ⟨o, hcases.mpr ⟨fun hP => hk ((hold k).mpr ⟨o, f, hP, ho⟩), ho⟩⟩
      · rintro ⟨o, ho⟩
        exact ⟨o, (hcases.mp ho).2⟩
  · intro o o' k f f' ho ho'
    exact h.once o o' k f f' (hcases.mp ho).2 (hcases.mp ho').2

end Schemes.Descriptors
