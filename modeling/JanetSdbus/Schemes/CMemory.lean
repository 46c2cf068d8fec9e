import Mathlib.Data.List.TakeWhile
import Mathlib.Logic.Function.Basic
import Mathlib.Order.Basic

/-! Blocks of characters and C strings in them.

    Memory is a growing supply of blocks; a pointer is a block and an offset. Every access is
    checked, so an out-of-bounds or dangling access is an outcome and not a value. `Str m p s` says
    that the string at `p` is `s`, up to a NUL inside its block, and `Extends m m'` that whatever
    was there in `m` is still the same in `m'`. -/

namespace Schemes.CMemory

structure Ptr where
  blk : ℕ
  off : ℕ
  deriving DecidableEq

def Ptr.add (p : Ptr) (n : ℕ) : Ptr := { p with off := p.off + n }

@[simp] theorem Ptr.add_blk (p : Ptr) (n : ℕ) : (p.add n).blk = p.blk := rfl

@[simp] theorem Ptr.add_off (p : Ptr) (n : ℕ) : (p.add n).off = p.off + n := rfl

@[simp] theorem Ptr.add_zero (p : Ptr) : p.add 0 = p := rfl

theorem Ptr.add_add (p : Ptr) (m n : ℕ) : (p.add m).add n = p.add (m + n) := by
  simp [Ptr.add, Nat.add_assoc]

/-- Blocks from `next` on have not been handed out. -/
structure Mem where
  blocks : ℕ → Option (List Char)
  next : ℕ
  fresh : ∀ b, next ≤ b → blocks b = none

namespace Mem

def empty : Mem := ⟨fun _ => none, 0, fun _ _ => rfl⟩

/-- A new block with the given characters. -/
def alloc (m : Mem) (cs : List Char) : Ptr × Mem :=
  (⟨m.next, 0⟩, {
    blocks := Function.update m.blocks m.next (some cs)
    next := m.next + 1
    fresh := fun b hb => by
      rw [Function.update_of_ne (by omega)]
      exact m.fresh b (by omega) })

/-- A new block of `n` NULs. -/
def calloc (m : Mem) (n : ℕ) : Ptr × Mem := m.alloc (List.replicate n '\x00')

theorem lt_next {m : Mem} {b : ℕ} {cs : List Char} (h : m.blocks b = some cs) : b < m.next := by
  by_contra hge
  rw [m.fresh b (by omega)] at h
  exact absurd h (by simp)

/-- Replace a live block. -/
def put (m : Mem) (b : ℕ) (cs : Option (List Char)) (h : b < m.next) : Mem where
  blocks := Function.update m.blocks b cs
  next := m.next
  fresh := fun c hc => by
    rw [Function.update_of_ne (by omega)]
    exact m.fresh c hc

def free (m : Mem) (p : Ptr) : Option Mem :=
  match h : m.blocks p.blk with
  | some _ => if p.off = 0 then some (m.put p.blk none (lt_next h)) else none
  | none => none

def read (m : Mem) (p : Ptr) : Option Char := (m.blocks p.blk).bind fun cs => cs[p.off]?

/-- `n` characters from `p` on. -/
def readN (m : Mem) (p : Ptr) (n : ℕ) : Option (List Char) :=
  (m.blocks p.blk).bind fun cs =>
    if p.off + n ≤ cs.length then some ((cs.drop p.off).take n) else none

def write (m : Mem) (p : Ptr) (cs : List Char) : Option Mem :=
  match h : m.blocks p.blk with
  | some old =>
    if p.off + cs.length ≤ old.length then
      some (m.put p.blk (some (old.take p.off ++ cs ++ old.drop (p.off + cs.length))) (lt_next h))
    else none
  | none => none

/-- The two ranges may overlap. -/
def memmove (m : Mem) (dst src : Ptr) (n : ℕ) : Option Mem := (m.readN src n).bind (m.write dst)

/-- Between two blocks. -/
def memcpy (m : Mem) (dst src : Ptr) (n : ℕ) : Option Mem :=
  if dst.blk = src.blk then none else m.memmove dst src n

/-- The string at `p`. -/
def cstr (m : Mem) (p : Ptr) : Option (List Char) :=
  (m.blocks p.blk).bind fun cs =>
    if '\x00' ∈ cs.drop p.off then some ((cs.drop p.off).takeWhile (· ≠ '\x00')) else none

end Mem

/-! ### Strings -/

def Str (m : Mem) (p : Ptr) (s : List Char) : Prop :=
  '\x00' ∉ s ∧ ∃ cs rest, m.blocks p.blk = some cs ∧ cs.drop p.off = s ++ '\x00' :: rest

/-- Nothing that was there has changed. -/
structure Extends (m m' : Mem) : Prop where
  next_le : m.next ≤ m'.next
  same : ∀ b < m.next, m'.blocks b = m.blocks b

variable {m m' m₁ m₂ : Mem} {p q : Ptr} {s t : List Char} {c : Char}

theorem Extends.refl (m : Mem) : Extends m m := ⟨Nat.le_refl _, fun _ _ => rfl⟩

theorem Extends.trans (h₁ : Extends m m₁) (h₂ : Extends m₁ m₂) : Extends m m₂ :=
  ⟨Nat.le_trans h₁.next_le h₂.next_le, fun b hb => by
    rw [h₂.same b (Nat.lt_of_lt_of_le hb h₁.next_le), h₁.same b hb]⟩

theorem Str.blk_lt (h : Str m p s) : p.blk < m.next := by
  obtain ⟨_, _, _, hb, _⟩ := h
  exact Mem.lt_next hb

theorem Str.mono (h : Str m p s) (hm : Extends m m') : Str m' p s := by
  have hlt := h.blk_lt
  obtain ⟨hnul, cs, rest, hb, hd⟩ := h
  exact ⟨hnul, cs, rest, by rw [hm.same _ hlt, hb], hd⟩

theorem drop_eq_cons {cs r : List Char} {n : ℕ} (h : cs.drop n = c :: r) :
    cs[n]? = some c ∧ cs.drop (n + 1) = r := by
  constructor
  · have hget : (cs.drop n)[0]? = some c := by rw [h]; rfl
    rwa [List.getElem?_drop] at hget
  · rw [← List.drop_drop, h, List.drop_one, List.tail_cons]

theorem Str.cons (h : Str m p (c :: s)) : m.read p = some c ∧ Str m (p.add 1) s := by
  obtain ⟨hnul, cs, rest, hb, hd⟩ := h
  obtain ⟨hget, hdrop⟩ := drop_eq_cons hd
  refine ⟨by rw [Mem.read, hb]; exact hget, ?_, cs, rest, hb, hdrop⟩
  exact fun hmem => hnul (List.mem_cons_of_mem _ hmem)

theorem Str.nil_read (h : Str m p []) : m.read p = some '\x00' := by
  obtain ⟨_, cs, rest, hb, hd⟩ := h
  rw [Mem.read, hb]
  exact (drop_eq_cons hd).1

/-- What `*p` is, also at the end of the string. -/
theorem Str.read (h : Str m p s) : m.read p = some (s.headD '\x00') := by
  cases s with
  | nil => exact h.nil_read
  | cons c s => exact h.cons.1

/-- Only the end of a string reads as NUL. -/
theorem Str.eq_nil (h : Str m p s) (hr : m.read p = some '\x00') : s = [] := by
  cases s with
  | nil => rfl
  | cons c s =>
    have hc : c = '\x00' := Option.some.inj (h.cons.1.symm.trans hr)
    exact absurd (hc ▸ List.mem_cons_self) h.1

theorem Str.append : ∀ {s t : List Char} {p : Ptr}, Str m p (s ++ t) → Str m (p.add s.length) t
  | [], _, _, h => h
  | _ :: s, t, p, h => by
    have htail := Str.append (s := s) h.cons.2
    rwa [Ptr.add_add, Nat.add_comm] at htail

/-- A cursor may stand anywhere in the string and at its end. -/
theorem Str.read_at {n : ℕ} (h : Str m p s) (hn : n ≤ s.length) : ∃ c, m.read (p.add n) = some c := by
  rw [← List.take_append_drop n s] at h
  have hrest := h.append
  rw [List.length_take, Nat.min_eq_left hn] at hrest
  exact ⟨_, hrest.read⟩

theorem Str.append_nil (h : Str m p s) : Str m p (s ++ []) := (List.append_nil s).symm ▸ h

theorem Str.cstr (h : Str m p s) : m.cstr p = some s := by
  obtain ⟨hnul, cs, rest, hb, hd⟩ := h
  have hpos : ∀ a ∈ s, decide (a ≠ '\x00') = true := by
    intro a ha
    exact decide_eq_true fun heq => hnul (heq ▸ ha)
  rw [Mem.cstr, hb, Option.bind_some, hd, if_pos (by simp), List.takeWhile_append_of_pos hpos]
  simp

theorem Str.unique (hs : Str m p s) (ht : Str m p t) : s = t :=
  Option.some.inj (hs.cstr.symm.trans ht.cstr)

/-- Any part of the string can be read, also with its NUL. -/
theorem Str.readN (h : Str m p (s ++ t)) : m.readN p s.length = some s := by
  obtain ⟨_, cs, rest, hb, hd⟩ := h
  have hlen := congrArg List.length hd
  simp only [List.length_drop, List.length_append, List.length_cons] at hlen
  rw [Mem.readN, hb, Option.bind_some, if_pos (by omega), hd, List.append_assoc, List.take_left]

/-! ### Allocation and copies -/

theorem alloc_extends (m : Mem) (cs : List Char) : Extends m (m.alloc cs).2 where
  next_le := Nat.le_succ _
  same b hb := Function.update_of_ne (by omega) _ _

theorem alloc_str {r : List Char} (h : '\x00' ∉ s) :
    Str (m.alloc (s ++ '\x00' :: r)).2 (m.alloc (s ++ '\x00' :: r)).1 s :=
  ⟨h, _, r, Function.update_self _ _ _, rfl⟩

theorem put_extends {b : ℕ} {cs : Option (List Char)} {h : b < m₁.next} (hm : Extends m m₁)
    (hb : m.next ≤ b) : Extends m (m₁.put b cs h) where
  next_le := hm.next_le
  same c hc := by
    rw [← hm.same c hc]
    exact Function.update_of_ne (by omega) _ _

/-- Writing within a block that is younger than `m`. -/
theorem write_young {old w : List Char} (hm : Extends m m₁) (hp : m.next ≤ p.blk)
    (hold : m₁.blocks p.blk = some old) (hlen : p.off + w.length ≤ old.length) :
    ∃ m₂, m₁.write p w = some m₂ ∧ Extends m m₂ ∧ m₂.next = m₁.next ∧
      m₂.blocks p.blk = some (old.take p.off ++ w ++ old.drop (p.off + w.length)) := by
  refine ⟨m₁.put p.blk (some (old.take p.off ++ w ++ old.drop (p.off + w.length)))
    (Mem.lt_next hold), ?_, put_extends hm hp, rfl, Function.update_self _ _ _⟩
  rw [Mem.write]
  split
  · next old' heq =>
    obtain rfl : old = old' := Option.some.inj (hold.symm.trans heq)
    rw [if_pos hlen]
  · next heq => rw [hold] at heq; exact absurd heq (by simp)

/-- Releasing a block that is younger than `m`. -/
theorem free_young {cs : List Char} (hm : Extends m m₁) (hp : m.next ≤ p.blk) (hoff : p.off = 0)
    (hcs : m₁.blocks p.blk = some cs) : ∃ m₂, m₁.free p = some m₂ ∧ Extends m m₂ := by
  refine ⟨m₁.put p.blk none (Mem.lt_next hcs), ?_, put_extends hm hp⟩
  rw [Mem.free]
  split
  · rw [if_pos hoff]
  · next heq => rw [hcs] at heq; exact absurd heq (by simp)

/-- Releasing a scratch string. -/
theorem Str.free (h : Str m₁ p s) (hm : Extends m m₁) (hp : m.next ≤ p.blk) (hoff : p.off = 0) :
    ∃ m₂, m₁.free p = some m₂ ∧ Extends m m₂ := by
  obtain ⟨_, cs, _, hcs, _⟩ := h
  exact free_young hm hp hoff hcs

/-- Copying the front of a string into a new, larger block of NULs makes a string of its own. -/
theorem calloc_memcpy {n : ℕ} (h : Str m p (s ++ t)) (hn : s.length < n) :
    ∃ m₂, (m.calloc n).2.memcpy (m.calloc n).1 p s.length = some m₂ ∧ Extends m m₂ ∧
      m₂.blocks (m.calloc n).1.blk = some (s ++ List.replicate (n - s.length) '\x00') ∧
      Str m₂ (m.calloc n).1 s := by
  have hext := alloc_extends m (List.replicate n '\x00')
  have hread : (m.calloc n).2.readN p s.length = some s := (h.mono hext).readN
  have hblk : (m.calloc n).2.blocks (m.calloc n).1.blk = some (List.replicate n '\x00') :=
    Function.update_self _ _ _
  obtain ⟨m₂, hw, hm₂, _, hnew⟩ := write_young (w := s) hext (Nat.le_refl m.next) hblk
    (by rw [List.length_replicate]; exact Nat.le_of_lt (by simpa [Mem.calloc, Mem.alloc] using hn))
  have hcontents : m₂.blocks (m.calloc n).1.blk =
      some (s ++ List.replicate (n - s.length) '\x00') := by
    rw [hnew]
    simp [Mem.calloc, Mem.alloc]
  refine ⟨m₂, ?_, hm₂, hcontents, ?_, _, List.replicate (n - s.length - 1) '\x00', hcontents, ?_⟩
  · have hne : (m.calloc n).1.blk ≠ p.blk := Nat.ne_of_gt h.blk_lt
    rw [Mem.memcpy, if_neg hne, Mem.memmove, hread, Option.bind_some]
    exact hw
  · exact fun hmem => h.1 (List.mem_append_left _ hmem)
  · obtain ⟨k, hk⟩ : ∃ k, n - s.length = k + 1 := ⟨n - s.length - 1, by omega⟩
    rw [hk, List.replicate_succ]
    simp [Mem.calloc, Mem.alloc]

/-- Moving what stands between the first character of a block and a later one to the front, and
    ending it there, makes a string of it. -/
theorem memmove_strip {c d : Char} {rest : List Char} (hm : Extends m m₁) (hp : m.next ≤ p.blk)
    (hoff : p.off = 0) (hnul : '\x00' ∉ s) (hcs : m₁.blocks p.blk = some (c :: (s ++ d :: rest))) :
    ∃ m₂ m₃ cs, m₁.memmove p (p.add 1) s.length = some m₂ ∧
      m₂.write (p.add s.length) ['\x00'] = some m₃ ∧ Extends m m₃ ∧
      m₃.blocks p.blk = some cs ∧ Str m₃ p s := by
  have hread : m₁.readN (p.add 1) s.length = some s := by
    rw [Mem.readN, Ptr.add_blk, hcs, Option.bind_some, Ptr.add_off, hoff, if_pos (by simp; omega)]
    simp
  obtain ⟨m₂, hw, hm₂, _, hnew⟩ := write_young (w := s) hm hp hcs (by rw [hoff]; simp; omega)
  -- something is left behind the moved characters, where the new end goes
  obtain ⟨x, r, hx⟩ : ∃ x r, (c :: (s ++ d :: rest)).drop s.length = x :: r := by
    apply List.exists_cons_of_length_pos
    simp only [List.length_drop, List.length_cons, List.length_append]
    omega
  rw [hoff, List.take_zero, List.nil_append, Nat.zero_add, hx] at hnew
  obtain ⟨m₃, hw₃, hm₃, _, hlast⟩ := write_young (p := p.add s.length) (w := ['\x00']) hm₂ hp hnew
    (by simp [hoff])
  have hend : m₃.blocks p.blk = some (s ++ '\x00' :: r) := by simpa [hoff] using hlast
  exact ⟨m₂, m₃, _, by rw [Mem.memmove, hread]; exact hw, hw₃, hm₃, hend, hnul, _, r, hend,
    by rw [hoff, List.drop_zero]⟩

end Schemes.CMemory
