import Mathlib.Data.List.Nodup
import JanetSdbus.Message.Spelling

/-! Values that can be read, stored and appended again.

    The decoder spells every item without descriptors, NaNs, dictionaries with equal keys and arrays
    of bytes (`decode_spelled`): what it returns stands for the item it read. To be the same value is
    transitive, so this can be carried along a run that reads and appends the same thing again. -/

namespace JanetSdbus.Message
open DBus

mutual
/-- There is no array of bytes in the item, not even an empty one. -/
def noBytes : Item → Bool
  | .basic _ => true
  | .container c s is => !(decide (c = .array) && decide (s = [Code.byte.char])) && noBytesAll is
def noBytesAll : List Item → Bool
  | [] => true
  | i :: is => noBytes i && noBytesAll is
end

def entryKey : Item → Option Basic
  | .container .dictEntry _ (.basic x :: _) => some x
  | _ => none

mutual
/-- There is no dictionary with equal keys in the item. -/
def distinctKeys : Item → Bool
  | .basic _ => true
  | .container _ _ is => decide (is.filterMap entryKey).Nodup && distinctKeysAll is
def distinctKeysAll : List Item → Bool
  | [] => true
  | i :: is => distinctKeys i && distinctKeysAll is
end

/-- What a client may send: no descriptors, no NaNs, no dictionaries with equal keys. -/
structure Sendable (i : Item) : Prop where
  fds : validItem notFd i = true
  nans : validItem notNan i = true
  keys : distinctKeys i = true

structure AllSendable (is : List Item) : Prop where
  fds : validItems notFd is = true
  nans : validItems notNan is = true
  keys : distinctKeysAll is = true

theorem Sendable.contents {c : Container} {s : List Char} {is : List Item}
    (h : Sendable (.container c s is)) : AllSendable is := by
  obtain ⟨hfds, hnans, hkeys⟩ := h
  rw [distinctKeys, Bool.and_eq_true] at hkeys
  exact ⟨by rwa [validItem] at hfds, by rwa [validItem] at hnans, hkeys.2⟩

theorem Sendable.nodup {c : Container} {s : List Char} {is : List Item}
    (h : Sendable (.container c s is)) : (is.filterMap entryKey).Nodup := by
  have hkeys := h.keys
  rw [distinctKeys, Bool.and_eq_true] at hkeys
  exact of_decide_eq_true hkeys.1

theorem AllSendable.cons {i : Item} {is : List Item} (h : AllSendable (i :: is)) :
    Sendable i ∧ AllSendable is := by
  obtain ⟨hfds, hnans, hkeys⟩ := h
  rw [validItems, Bool.and_eq_true] at hfds hnans
  rw [distinctKeysAll, Bool.and_eq_true] at hkeys
  exact ⟨⟨hfds.1, hnans.1, hkeys.1⟩, ⟨hfds.2, hnans.2, hkeys.2⟩⟩

section spelled
variable (tb : Tables) (dup : ℤ → Except String ℤ)

theorem basicValue_eq_spell {x : Basic} (h : notFd x = true) : basicValue dup x = spell x := by
  rw [basicValue_notFd h]
  cases x with
  | fd n => simp [notFd, Basic.code] at h
  | _ => rfl

/-- The keys of the pairs are spelled like the keys of the entries. -/
theorem decodePairs_keys {k : Code} {t : Ty} {es : List Item} (hes : Item.EntriesHaveTy k t es)
    (hfds : validItems notFd es = true) :
    (decodePairs tb dup es).map Prod.fst = (es.filterMap entryKey).map spell := by
  induction es with
  | nil => rw [decodePairs]; rfl
  | cons e es ih =>
    cases hes with
    | cons x _ i _ _ hes =>
      rw [validItems, Bool.and_eq_true] at hfds
      have hentry := hfds.1
      simp only [entryItem, validItem, validItems, Bool.and_eq_true] at hentry
      rw [entryItem, decodePairs, List.map_cons, ih hes hfds.2, List.filterMap_cons, entryKey, List.map_cons,
        basicValue_eq_spell dup hentry.1]

theorem entryKey_code {k : Code} {t : Ty} {es : List Item} (hes : Item.EntriesHaveTy k t es) :
    ∀ x ∈ es.filterMap entryKey, x.code = k := by
  induction es with
  | nil => simp
  | cons e es ih =>
    cases hes with
    | cons y _ i _ _ hes =>
      intro x h
      rw [List.filterMap_cons, entryItem, entryKey] at h
      rcases List.mem_cons.mp h with rfl | h
      · rfl
      · exact ih hes x h

theorem entryKey_notNan : ∀ {es : List Item}, validItems notNan es = true →
    ∀ x ∈ es.filterMap entryKey, notNan x = true
  | [], _, _, h => by simp at h
  | e :: es, hnans, x, h => by
    rw [validItems, Bool.and_eq_true] at hnans
    rw [List.filterMap_cons] at h
    split at h
    · exact entryKey_notNan hnans.2 x h
    · next y hy =>
      rcases List.mem_cons.mp h with rfl | h
      · rw [entryKey.eq_def] at hy
        split at hy
        · next z rest =>
          obtain rfl := Option.some.inj hy
          have hentry := hnans.1
          rw [validItem, validItems, Bool.and_eq_true, validItem] at hentry
          exact hentry.1
        · simp at hy
      · exact entryKey_notNan hnans.2 x h

/-- Distinct keys of a type are spelled apart. -/
theorem decodePairs_distinct {k : Code} {t : Ty} {es : List Item} (hes : Item.EntriesHaveTy k t es)
    (hfds : validItems notFd es = true) (hnans : validItems notNan es = true)
    (hnodup : (es.filterMap entryKey).Nodup) : DistinctKeys (decodePairs tb dup es) := by
  have hkeys := decodePairs_keys tb dup hes hfds
  refine ⟨?_, fun kv hkv => ?_⟩
  · rw [hkeys]
    exact List.Nodup.map_on (fun x hx y hy h =>
      spell_inj ((entryKey_code hes x hx).trans (entryKey_code hes y hy).symm) h) hnodup
  · have hmem : kv.1 ∈ (es.filterMap entryKey).map spell := hkeys ▸ List.mem_map_of_mem hkv
    obtain ⟨x, hx, hspell⟩ := List.mem_map.mp hmem
    rw [← hspell]
    exact spell_ne_nan (entryKey_notNan hnans x hx)

mutual
/-- What the decoder makes of an item that can be sent is a spelling of it, unless there is an array
    of bytes in it. -/
theorem decode_spelled : ∀ {t : Ty} {i : Item}, Item.HasTy t i → Sendable i → noBytes i = true →
    ∃ j, Spells t (decode tb dup i) j ∧ Item.Same j i
  | _, _, .basic x, hsend, _ => by
    have hfds := hsend.fds
    rw [validItem] at hfds
    rw [decode, basicValue_eq_spell dup hfds]
    exact ⟨.basic x, .basic x, .basic x⟩
  | _, _, .variant t i hi, hsend, hbytes => by
    rw [noBytes, noBytesAll, noBytesAll, Bool.and_true, Bool.and_eq_true] at hbytes
    obtain ⟨j, hj, hsame⟩ := decode_spelled hi hsend.contents.cons.1 hbytes.2
    refine ⟨.container .variant t.render [j], ?_, .container _ _ _ _ (.cons _ _ _ _ hsame .nil)⟩
    rw [decode, decodeAll, decodeAll, signatureString]
    exact .variant t _ _ j (chars_render t) hj
  | _, _, .array t is his, hsend, hbytes => by
    rw [noBytes, Bool.and_eq_true] at hbytes
    have ht : isByte t = false := by
      cases ht : isByte t with
      | true =>
        obtain rfl := isByte_eq ht
        exact absurd hbytes.1 (by decide)
      | false => rfl
    have hhead := t.render_no_entry
    obtain ⟨js, hjs, hsame⟩ := decodeEach_spelled his hsend.contents hbytes.2
    rw [decode, if_neg hhead]
    exact ⟨.container .array t.render js, .array t _ js ht hjs, .container _ _ _ _ hsame⟩
  | _, _, .dict k t es hes, hsend, hbytes => by
    rw [noBytes, Bool.and_eq_true] at hbytes
    obtain ⟨hfds, hnans, -⟩ := hsend.contents
    have hdistinct := decodePairs_distinct tb dup hes hfds hnans hsend.nodup
    have hperm : (decodeEntries tb dup [] es).Perm (decodePairs tb dup es) := by
      have hkeys : DistinctKeys (decodePairs tb dup es ++ []) := by rwa [List.append_nil]
      have hperm := decodeEntries_perm tb dup hes (validItems_mono readable_of_notFd es hfds) hkeys
      rwa [List.append_nil] at hperm
    obtain ⟨js, hjs, hsame⟩ := decodeEntries_spelled hes hsend.contents hbytes.2
    -- the spelled entries, in the order of the table
    obtain ⟨ks, hks, hkperm⟩ := List.perm_comp_forall₂ hperm (spellsEntries_iff.mp hjs)
    have hhead : (renderEntry k t).head? = some '{' := rfl
    rw [decode, if_pos hhead]
    exact ⟨.container .array (renderEntry k t) ks, .dict k t _ ks (spellsEntries_iff.mpr hks)
      ⟨(hperm.map Prod.fst).nodup_iff.mpr hdistinct.1, fun kv hkv => hdistinct.2 kv (hperm.mem_iff.mp hkv)⟩,
      .entries _ ks js es hkperm hsame⟩
  | _, _, .struct t ts is his, hsend, hbytes => by
    rw [noBytes, Bool.and_eq_true] at hbytes
    obtain ⟨js, hjs, hsame⟩ := decodeFields_spelled his hsend.contents hbytes.2
    rw [decode]
    exact ⟨.container .struct (renderAll (t :: ts)) js, .struct t ts _ js hjs, .container _ _ _ _ hsame⟩
theorem decodeEach_spelled : ∀ {t : Ty} {is : List Item}, Item.EachHasTy t is → AllSendable is →
    noBytesAll is = true → ∃ js, SpellsEach t (decodeAll tb dup is) js ∧ Item.AllSame js is
  | _, _, .nil t, _, _ => by
    rw [decodeAll]
    exact ⟨[], .nil t, .nil⟩
  | _, _, .cons t i is hi his, hsend, hbytes => by
    rw [noBytesAll, Bool.and_eq_true] at hbytes
    obtain ⟨j, hj, hsame⟩ := decode_spelled hi hsend.cons.1 hbytes.1
    obtain ⟨js, hjs, hall⟩ := decodeEach_spelled his hsend.cons.2 hbytes.2
    rw [decodeAll]
    exact ⟨j :: js, .cons t _ _ j js hj hjs, .cons _ _ _ _ hsame hall⟩
theorem decodeEntries_spelled : ∀ {k : Code} {t : Ty} {es : List Item}, Item.EntriesHaveTy k t es →
    AllSendable es → noBytesAll es = true →
    ∃ js, SpellsEntries k t (decodePairs tb dup es) js ∧ Item.AllSame js es
  | _, _, _, .nil k t, _, _ => by
    rw [decodePairs]
    exact ⟨[], .nil k t, .nil⟩
  | _, _, _, .cons x t i es hi hes, hsend, hbytes => by
    rw [noBytesAll, Bool.and_eq_true, entryItem, noBytes, Bool.and_eq_true, noBytesAll, noBytesAll, noBytesAll,
      Bool.and_true, Bool.and_eq_true] at hbytes
    obtain ⟨hx, hi'⟩ := hsend.cons.1.contents.cons
    have hfds := hx.fds
    rw [validItem] at hfds
    obtain ⟨j, hj, hsame⟩ := decode_spelled hi hi'.cons.1 hbytes.1.2.2
    obtain ⟨js, hjs, hall⟩ := decodeEntries_spelled hes hsend.cons.2 hbytes.2
    rw [entryItem, decodePairs, basicValue_eq_spell dup hfds]
    exact ⟨entryItem x.code t x j :: js, .cons x t _ j _ js hj hjs,
      .cons _ _ _ _ (.container _ _ _ _ (.cons _ _ _ _ (.basic x) (.cons _ _ _ _ hsame .nil))) hall⟩
theorem decodeFields_spelled : ∀ {ts : List Ty} {is : List Item}, Item.HaveTys ts is → AllSendable is →
    noBytesAll is = true → ∃ js, SpellsFields ts (decodeAll tb dup is) js ∧ Item.AllSame js is
  | _, _, .nil, _, _ => by
    rw [decodeAll]
    exact ⟨[], .nil, .nil⟩
  | _, _, .cons t ts i is hi his, hsend, hbytes => by
    rw [noBytesAll, Bool.and_eq_true] at hbytes
    obtain ⟨j, hj, hsame⟩ := decode_spelled hi hsend.cons.1 hbytes.1
    obtain ⟨js, hjs, hall⟩ := decodeFields_spelled his hsend.cons.2 hbytes.2
    rw [decodeAll]
    exact ⟨j :: js, .cons t ts _ _ j js hj hjs, .cons _ _ _ _ hsame hall⟩
end

end spelled

/-! ### Sameness is transitive -/

theorem allSame_trans : ∀ {is js ks : List Item},
    List.Forall₂ (fun i j => ∀ k, Item.Same j k → Item.Same i k) is js → Item.AllSame js ks →
    Item.AllSame is ks
  | _, _, _, .nil, .nil => .nil
  | _, _, _, .cons h hs, .cons _ k _ ks hk hks => .cons _ k _ ks (h k hk) (allSame_trans hs hks)

/-- Entries that are the same in some order, and then in another. -/
theorem entries_trans {is js ks ls : List Item}
    (h : List.Forall₂ (fun i j => ∀ k, Item.Same j k → Item.Same i k) is js) (hperm : js.Perm ks)
    (hall : Item.AllSame ks ls) : ∃ ms, is.Perm ms ∧ Item.AllSame ms ls := by
  obtain ⟨ms, hms, hmk⟩ : Relation.Comp List.Perm
      (List.Forall₂ fun i j => ∀ k, Item.Same j k → Item.Same i k) is ks :=
    List.forall₂_comp_perm_eq_perm_comp_forall₂ ▸ ⟨js, h, hperm⟩
  exact ⟨ms, hms, allSame_trans hmk hall⟩

mutual
theorem same_trans : ∀ {i j : Item}, Item.Same i j → ∀ k, Item.Same j k → Item.Same i k
  | _, _, .basic _, _, h => h
  | _, _, .container c s is js hall, k, h => by
    have hfor := allSame_forall₂ hall
    cases h with
    | container _ _ _ ls hjl => exact .container c s is ls (allSame_trans hfor hjl)
    | entries s' _ ks ls hperm hjl =>
      obtain ⟨ms, hms, hml⟩ := entries_trans hfor hperm hjl
      exact .entries s' is ms ls hms hml
  | _, _, .entries s is ks js hperm hall, k, h => by
    have hfor := allSame_forall₂ hall
    cases h with
    | container _ _ _ ls hjl => exact .entries s is ks ls hperm (allSame_trans hfor hjl)
    | entries _ _ ms ls hperm' hjl =>
      obtain ⟨ns, hns, hnl⟩ := entries_trans hfor hperm' hjl
      exact .entries s is ns ls (hperm.trans hns) hnl
theorem allSame_forall₂ : ∀ {is js : List Item}, Item.AllSame is js →
    List.Forall₂ (fun i j => ∀ k, Item.Same j k → Item.Same i k) is js
  | _, _, .nil => .nil
  | _, _, .cons _ _ _ _ h hs => .cons (same_trans h) (allSame_forall₂ hs)
end

theorem validItems_iff {valid : Basic → Bool} {is : List Item} :
    validItems valid is = true ↔ ∀ i ∈ is, validItem valid i = true := by
  induction is with
  | nil => simp [validItems]
  | cons i is ih => rw [validItems, Bool.and_eq_true, ih, List.forall_mem_cons]

mutual
/-- The same value has the same basic values. -/
theorem valid_of_same {valid : Basic → Bool} : ∀ {i j : Item}, Item.Same i j → validItem valid j = true →
    validItem valid i = true
  | _, _, .basic _, h => h
  | _, _, .container _ _ _ _ hall, h => by
    rw [validItem] at h ⊢
    exact valid_of_allSame hall h
  | _, _, .entries _ is ks js hperm hall, h => by
    rw [validItem] at h ⊢
    have hks := validItems_iff.mp (valid_of_allSame hall h)
    exact validItems_iff.mpr fun i hi => hks i (hperm.mem_iff.mp hi)
theorem valid_of_allSame {valid : Basic → Bool} : ∀ {is js : List Item}, Item.AllSame is js →
    validItems valid js = true → validItems valid is = true
  | _, _, .nil, _ => rfl
  | _, _, .cons _ _ _ _ h hs, hv => by
    rw [validItems, Bool.and_eq_true] at hv ⊢
    exact ⟨valid_of_same h hv.1, valid_of_allSame hs hv.2⟩
end

/-! ### What the same values have in common -/

theorem noBytesAll_iff {is : List Item} : noBytesAll is = true ↔ ∀ i ∈ is, noBytes i = true := by
  induction is with
  | nil => simp [noBytesAll]
  | cons i is ih => rw [noBytesAll, Bool.and_eq_true, ih, List.forall_mem_cons]

mutual
theorem noBytes_of_same : ∀ {i j : Item}, Item.Same i j → noBytes j = true → noBytes i = true
  | _, _, .basic _, h => h
  | _, _, .container _ _ _ _ hall, h => by
    rw [noBytes, Bool.and_eq_true] at h ⊢
    exact ⟨h.1, noBytes_of_allSame hall h.2⟩
  | _, _, .entries _ is ks js hperm hall, h => by
    rw [noBytes, Bool.and_eq_true] at h ⊢
    have hks := noBytesAll_iff.mp (noBytes_of_allSame hall h.2)
    exact ⟨h.1, noBytesAll_iff.mpr fun i hi => hks i (hperm.mem_iff.mp hi)⟩
theorem noBytes_of_allSame : ∀ {is js : List Item}, Item.AllSame is js → noBytesAll js = true →
    noBytesAll is = true
  | _, _, .nil, _ => rfl
  | _, _, .cons _ _ _ _ h hs, hb => by
    rw [noBytesAll, Bool.and_eq_true] at hb ⊢
    exact ⟨noBytes_of_same h hb.1, noBytes_of_allSame hs hb.2⟩
end

/-- An entry has the key of any entry that is the same. -/
theorem entryKey_same {i j : Item} (h : Item.Same i j) : entryKey i = entryKey j := by
  cases h with
  | basic x => rfl
  | entries s is ks js hperm hall => rfl
  | container c s is js hall =>
    cases hall with
    | nil => rfl
    | cons i j is js hi his =>
      cases hi with
      | basic x => cases c <;> rfl
      | container c' s' is' js' hall' => cases c <;> rfl
      | entries s' is' ks' js' hperm' hall' => cases c <;> rfl

theorem entryKeys_same {is js : List Item} (h : Item.AllSame is js) :
    is.filterMap entryKey = js.filterMap entryKey := by
  induction allSame_iff.mp h with
  | nil => rfl
  | cons hi his ih => rw [List.filterMap_cons, List.filterMap_cons, entryKey_same hi, ih (allSame_iff.mpr his)]

theorem distinctKeysAll_iff {is : List Item} :
    distinctKeysAll is = true ↔ ∀ i ∈ is, distinctKeys i = true := by
  induction is with
  | nil => simp [distinctKeysAll]
  | cons i is ih => rw [distinctKeysAll, Bool.and_eq_true, ih, List.forall_mem_cons]

mutual
theorem distinctKeys_of_same : ∀ {i j : Item}, Item.Same i j → distinctKeys j = true → distinctKeys i = true
  | _, _, .basic _, h => h
  | _, _, .container _ _ _ _ hall, h => by
    rw [distinctKeys, Bool.and_eq_true, decide_eq_true_iff] at h ⊢
    exact ⟨entryKeys_same hall ▸ h.1, distinctKeys_of_allSame hall h.2⟩
  | _, _, .entries _ is ks js hperm hall, h => by
    rw [distinctKeys, Bool.and_eq_true, decide_eq_true_iff] at h ⊢
    have hks := distinctKeysAll_iff.mp (distinctKeys_of_allSame hall h.2)
    refine ⟨(hperm.filterMap entryKey).nodup_iff.mpr ?_, ?_⟩
    · exact entryKeys_same hall ▸ h.1
    · exact distinctKeysAll_iff.mpr fun i hi => hks i (hperm.mem_iff.mp hi)
theorem distinctKeys_of_allSame : ∀ {is js : List Item}, Item.AllSame is js → distinctKeysAll js = true →
    distinctKeysAll is = true
  | _, _, .nil, _ => rfl
  | _, _, .cons _ _ _ _ h hs, hb => by
    rw [distinctKeysAll, Bool.and_eq_true] at hb ⊢
    exact ⟨distinctKeys_of_same h hb.1, distinctKeys_of_allSame hs hb.2⟩
end

theorem sendable_of_same {i j : Item} (h : Item.Same i j) (hj : Sendable j) : Sendable i :=
  ⟨valid_of_same h hj.fds, valid_of_same h hj.nans, distinctKeys_of_same h hj.keys⟩

end JanetSdbus.Message
