import Mathlib

/-! A list of objects, one of which is replaced.

    Objects keep their place, so that their number names them. What is counted over the list changes
    by what the replaced object contributed. -/

namespace Schemes.Replace
variable {α : Type*} {l : List α} {n : ℕ} {x : α}

theorem get_replace (h : l[n]? = some x) {y z : α} {m : ℕ} (hm : (l.set n y)[m]? = some z) :
    (m = n ∧ z = y) ∨ (m ≠ n ∧ l[m]? = some z) := by
  rw [List.getElem?_set, if_pos (List.getElem?_eq_some_iff.mp h).1] at hm
  split at hm
  · next heq =>
    obtain rfl := Option.some.inj hm
    exact .inl ⟨heq.symm, rfl⟩
  · next hne => exact .inr ⟨Ne.symm hne, hm⟩

theorem get_replaced (h : l[n]? = some x) (y : α) : (l.set n y)[n]? = some y := by
  rw [List.getElem?_set, if_pos (List.getElem?_eq_some_iff.mp h).1, if_pos rfl]

theorem get_other {m : ℕ} (hm : m ≠ n) (y : α) : (l.set n y)[m]? = l[m]? := by
  rw [List.getElem?_set, if_neg (Ne.symm hm)]

theorem set_same (h : l[n]? = some x) : l.set n x = l := by
  refine List.ext_getElem? fun m => ?_
  by_cases hm : m = n
  · rw [hm, get_replaced h, h]
  · rw [get_other hm]

theorem forall_replace {P : α → Prop} (h : l[n]? = some x) (hall : ∀ z ∈ l, P z) {y : α} (hy : P y) :
    ∀ z ∈ l.set n y, P z := by
  intro z hz
  obtain ⟨m, hm⟩ := List.mem_iff_getElem?.mp hz
  rcases get_replace h hm with ⟨-, rfl⟩ | ⟨-, hold⟩
  · exact hy
  · exact hall z (List.mem_of_getElem? hold)

theorem countP_replace (p : α → Bool) (h : l[n]? = some x) (y : α) :
    (l.set n y).countP p + (p x).toNat = l.countP p + (p y).toNat := by
  induction l generalizing n with
  | nil => simp at h
  | cons z l ih =>
    cases n with
    | zero =>
      obtain rfl : z = x := Option.some.inj h
      rw [List.set_cons_zero, List.countP_cons, List.countP_cons]
      cases p z <;> cases p y <;> simp
    | succ n =>
      have hrest := ih (n := n) h
      rw [List.set_cons_succ, List.countP_cons, List.countP_cons]
      omega

theorem sum_replace (f : α → ℕ) (h : l[n]? = some x) (y : α) :
    ((l.set n y).map f).sum + f x = (l.map f).sum + f y := by
  induction l generalizing n with
  | nil => simp at h
  | cons z l ih =>
    cases n with
    | zero =>
      obtain rfl : z = x := Option.some.inj h
      simp only [List.set_cons_zero, List.map_cons, List.sum_cons]
      omega
    | succ n =>
      have hrest := ih (n := n) h
      simp only [List.set_cons_succ, List.map_cons, List.sum_cons]
      omega

end Schemes.Replace
