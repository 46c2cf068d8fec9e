import JanetSdbus.Message.RoundTrip

/-! Reads compose.

    `message-read` may be called again and again. Between calls the cursor stands before some
    top-level item: a read of `n` items returns the next `n`, or as many as there are, and leaves the
    cursor behind them (`messageRead_next`). So the results of any sequence of reads, put together,
    are the front of what `:all` returns (`reads_compose`). -/

namespace JanetSdbus.Message
open DBus

/-! ### Messages that can be decoded -/

section decodable
variable {α β : Type} {rt : Runtime} {tb : Tables} {dup : ℤ → Except String ℤ} {r r' : Reader}
  {b rest is : List Item} {outer : List (List Item)}

theorem read_bind_inv {x : Read α} {f : α → Read β} {c : β} (h : (x >>= f) r = .ok c r') :
    ∃ a s, x r = .ok a s ∧ f a s = .ok c r' := by
  cases hx : x r with
  | ok a s => exact ⟨a, s, rfl, by simpa [bind, EStateM.bind, hx] using h⟩
  | error e s => simp [bind, EStateM.bind, hx] at h

theorem read_throw {e : Stop} {a : α} : ¬ (throw e : Read α) r = .ok a r' := by
  intro h
  have heq : (throw e : Read α) r = .error e r := rfl
  rw [heq] at h
  exact absurd h (by simp)

/-- A descriptor that cannot be duplicated is an error. -/
theorem readBasicType_readable {x : Basic} {v : Janet}
    (h : readBasicType rt dup x.code.char (cursorAt b ((.basic x :: rest) :: outer)) = .ok v r') :
    readable dup x = true := by
  cases x with
  | fd n =>
    rw [readable]
    cases hn : dup n with
    | ok copy => rfl
    | error msg => exact absurd ((readBasicType_error hn).symm.trans h) read_throw
  | _ => rfl

/-- An item that `rec` reads can be decoded. -/
def ReadsOnly (dup : ℤ → Except String ℤ) (rec : Read (Option Janet)) (b : List Item) (i : Item) : Prop :=
  ∀ rest outer v r', rec (cursorAt b ((i :: rest) :: outer)) = .ok v r' → validItem (readable dup) i = true

variable {rec : Read (Option Janet)}

theorem readWhile_valid (tb : Tables) : ∀ {is : List Item} {n : ℕ} {vs : List Janet} {r' : Reader},
    (∀ i ∈ is, ReadsOnly dup rec b i) →
    (∀ i ∈ is, validItem (readable dup) i = true → Reads tb dup rec b i) →
    readWhile rec n (cursorAt b (is :: outer)) = .ok vs r' → validItems (readable dup) is = true
  | [], _, _, _, _, _, _ => rfl
  | i :: is, 0, _, _, _, _, h => by
    rw [readWhile] at h
    exact absurd h read_throw
  | i :: is, n + 1, _, _, honly, hreads, h => by
    rw [readWhile] at h
    obtain ⟨o, s, hi, h⟩ := read_bind_inv h
    have hvalid := honly i (by simp) is outer o s hi
    obtain ⟨rfl, rfl⟩ := EStateM.Result.ok.inj ((hreads i (by simp) hvalid is outer).symm.trans hi)
    obtain ⟨vs, s', hrest, _⟩ := read_bind_inv h
    rw [validItems, hvalid, Bool.true_and]
    exact readWhile_valid tb (fun j hj => honly j (List.mem_cons_of_mem _ hj))
      (fun j hj => hreads j (List.mem_cons_of_mem _ hj)) hrest

theorem readEntries_valid {k : Code} {v : Ty} : ∀ {es : List Item} {n : ℕ} {tbl tbl' : List (Janet × Janet)}
    {r' : Reader}, Item.EntriesHaveTy k v es → (∀ x i, entryItem k v x i ∈ es → ReadsOnly dup rec b i) →
    (∀ x i, entryItem k v x i ∈ es → validItem (readable dup) i = true → Reads tb dup rec b i) →
    readEntries rt tb dup rec n tbl (cursorAt b (es :: outer)) = .ok tbl' r' →
    validItems (readable dup) es = true
  | _, _, _, _, _, .nil _ _, _, _, _ => rfl
  | _, 0, _, _, _, .cons x _ i es _ hes, _, _, h => by
    rw [readEntries] at h
    exact absurd h read_throw
  | _, n + 1, tbl, _, _, .cons x _ i es _ hes, honly, hreads, h => by
    rw [readEntries] at h
    obtain ⟨o, s, hpeek, h⟩ := read_bind_inv h
    obtain ⟨rfl, rfl⟩ := EStateM.Result.ok.inj ((peek_item _).symm.trans hpeek)
    obtain ⟨_, s, henter, h⟩ := read_bind_inv h
    obtain ⟨_, rfl⟩ := EStateM.Result.ok.inj ((enter_ok .dictEntry (x.code.char :: v.render) [.basic x, i]).symm.trans henter)
    obtain ⟨key, s, hkey, h⟩ := read_bind_inv h
    have hx := readBasicType_readable hkey
    obtain ⟨rfl, rfl⟩ := EStateM.Result.ok.inj ((readBasicType_ok hx).symm.trans hkey)
    obtain ⟨o, s, hvalue, h⟩ := read_bind_inv h
    have hvalid := honly x i (by simp [entryItem]) [] _ o s hvalue
    obtain ⟨rfl, rfl⟩ := EStateM.Result.ok.inj ((hreads x i (by simp [entryItem]) hvalid [] _).symm.trans hvalue)
    obtain ⟨_, s, hexit, h⟩ := read_bind_inv h
    obtain ⟨_, rfl⟩ := EStateM.Result.ok.inj (exit_ok.symm.trans hexit)
    rw [validItems, readEntries_valid hes (fun y j hj => honly y j (List.mem_cons_of_mem _ hj))
      (fun y j hj => hreads y j (List.mem_cons_of_mem _ hj)) h]
    simp [entryItem, validItem, validItems, hx, hvalid]

/-- What `read_complete_type` returns on can be decoded. -/
theorem readCompleteType_valid : ∀ (n : ℕ) {t : Ty} {i : Item}, Item.HasTy t i → Item.size i < n →
    ReadsOnly dup (readCompleteType rt tb dup n) b i
  | 0, _, _, _, hn => absurd hn (Nat.not_lt_zero _)
  | n + 1, t, i, hty, hn => by
    intro rest outer v r' h
    rw [readCompleteType] at h
    obtain ⟨o, s, hpeek, h⟩ := read_bind_inv h
    obtain ⟨rfl, rfl⟩ := EStateM.Result.ok.inj ((peek_item i).symm.trans hpeek)
    have hreads : ∀ {u j}, Item.HasTy u j → Item.size j < n → validItem (readable dup) j = true →
        Reads tb dup (readCompleteType rt tb dup n) b j := fun hu hj hv => readCompleteType_item n hu hv hj
    cases hty with
    | basic x =>
      obtain ⟨_, _, h, _⟩ := read_bind_inv h
      rw [readBranch, if_pos (isBasicType_char _)] at h
      rw [validItem]
      exact readBasicType_readable h
    | variant t j hj =>
      rw [Item.size, sizeAll, sizeAll] at hn
      obtain ⟨_, _, h, _⟩ := read_bind_inv h
      have hv : 'v' = containerChar .variant := rfl
      simp only [containerChar] at h
      rw [readBranch, if_neg (by decide), if_pos hv, readVariantType] at h
      obtain ⟨_, _, henter, h⟩ := read_bind_inv h
      obtain ⟨_, rfl⟩ := EStateM.Result.ok.inj ((enter_ok .variant t.render [j]).symm.trans henter)
      obtain ⟨o, s, hread, _⟩ := read_bind_inv h
      rw [validItem, validItems, validItems, Bool.and_true]
      exact readCompleteType_valid n hj (by omega) [] _ o s hread
    | array t is his =>
      rw [Item.size] at hn
      have hhead := t.render_no_entry
      obtain ⟨_, _, h, _⟩ := read_bind_inv h
      simp only [containerChar] at h
      rw [readBranch, if_neg (by decide), if_neg (by decide), if_neg (by decide),
        if_neg fun h => hhead h.2, if_pos rfl, readArrayType] at h
      obtain ⟨_, _, henter, h⟩ := read_bind_inv h
      obtain ⟨_, rfl⟩ := EStateM.Result.ok.inj ((enter_ok .array t.render is).symm.trans henter)
      obtain ⟨vs, s, hread, _⟩ := read_bind_inv h
      rw [validItem]
      refine readWhile_valid tb (fun j hj => ?_) (fun j hj hv => ?_) hread
      · obtain ⟨u, hu⟩ := each_hasTy his j hj
        have := size_le_all hj
        exact readCompleteType_valid n hu (by omega)
      · obtain ⟨u, hu⟩ := each_hasTy his j hj
        have := size_le_all hj
        exact hreads hu (by omega) hv
    | dict k v es hes =>
      rw [Item.size] at hn
      have hhead : (renderEntry k v).head? = some '{' := rfl
      obtain ⟨_, _, h, _⟩ := read_bind_inv h
      simp only [containerChar] at h
      rw [readBranch, if_neg (by decide), if_neg (by decide), if_neg (by decide),
        if_pos ⟨rfl, hhead⟩, readDictType] at h
      obtain ⟨_, _, henter, h⟩ := read_bind_inv h
      obtain ⟨_, rfl⟩ := EStateM.Result.ok.inj ((enter_ok .array (renderEntry k v) es).symm.trans henter)
      obtain ⟨vs, s, hread, _⟩ := read_bind_inv h
      rw [validItem]
      -- the value of an entry is smaller than the dictionary
      have hentry : ∀ x j, entryItem k v x j ∈ es → Item.HasTy v j ∧ Item.size j < n := by
        intro x j hj
        obtain ⟨x', j', heq, _, hty⟩ := entries_hasTy hes _ hj
        have hsize := size_le_all hj
        simp only [entryItem, Item.container.injEq, List.cons.injEq, Item.basic.injEq] at heq
        obtain ⟨_, _, rfl, rfl, _⟩ := heq
        simp only [entryItem, Item.size, sizeAll] at hsize
        exact ⟨hty, by omega⟩
      refine readEntries_valid hes (fun x j hj => ?_) (fun x j hj hv => ?_) hread
      · obtain ⟨hu, hlt⟩ := hentry x j hj
        exact readCompleteType_valid n hu hlt
      · obtain ⟨hu, hlt⟩ := hentry x j hj
        exact hreads hu hlt hv
    | struct t ts is his =>
      rw [Item.size] at hn
      obtain ⟨_, _, h, _⟩ := read_bind_inv h
      have hr : 'r' = containerChar .struct := rfl
      simp only [containerChar] at h
      rw [readBranch, if_neg (by decide), if_neg (by decide), if_pos hr, readStructType] at h
      obtain ⟨_, _, henter, h⟩ := read_bind_inv h
      obtain ⟨_, rfl⟩ := EStateM.Result.ok.inj ((enter_ok .struct (renderAll (t :: ts)) is).symm.trans henter)
      obtain ⟨vs, s, hread, _⟩ := read_bind_inv h
      rw [validItem]
      refine readWhile_valid tb (fun j hj => ?_) (fun j hj hv => ?_) hread
      · obtain ⟨u, hu⟩ := fields_hasTy his j hj
        have := size_le_all hj
        exact readCompleteType_valid n hu (by omega)
      · obtain ⟨u, hu⟩ := fields_hasTy his j hj
        have := size_le_all hj
        exact hreads hu (by omega) hv

/-- A message that `:all` returns on can be decoded. -/
theorem messageRead_all_valid {ts : List Ty} {is : List Item} {v : Janet} {r' : Reader}
    (hty : Item.HaveTys ts is) (h : cfunMessageRead rt tb dup .all (sealMessage is) = .ok v r') :
    validItems (readable dup) is = true := by
  rw [cfunMessageRead] at h
  obtain ⟨r, s, hget, h⟩ := read_bind_inv h
  obtain ⟨rfl, rfl⟩ := EStateM.Result.ok.inj hget
  obtain ⟨_, s, hrewind, h⟩ := read_bind_inv h
  obtain ⟨_, rfl⟩ := EStateM.Result.ok.inj hrewind
  obtain ⟨vs, s, hread, _⟩ := read_bind_inv h
  have hfuel : (sealMessage is).fuel = sizeAll is + sizeAll [is].flatten + 2 := rfl
  have hlt : ∀ j ∈ is, Item.size j < (sealMessage is).fuel := by
    intro j hj
    have := size_le_all hj
    omega
  refine readWhile_valid tb (fun j hj => ?_) (fun j hj hv => ?_) hread
  · obtain ⟨u, hu⟩ := fields_hasTy hty j hj
    exact readCompleteType_valid _ hu (hlt j hj)
  · obtain ⟨u, hu⟩ := fields_hasTy hty j hj
    exact readCompleteType_item _ hu hv (hlt j hj)

end decodable

/-! ### Sequences of reads -/

/-- What a read asks for that does not rewind. -/
inductive Ask where
  | items (n : ℕ)
  | rest

def Ask.what : Ask → What
  | .items n => .count n
  | .rest => .rest

/-- How many items are asked for where `m` remain. -/
def Ask.demand (m : ℕ) : Ask → ℕ
  | .items n => n
  | .rest => m

/-- How many items each read returns where `m` remain. -/
def counts : ℕ → List Ask → List ℕ
  | _, [] => []
  | m, a :: as => min m (a.demand m) :: counts (m - a.demand m) as

def Janet.elements : Janet → List Janet
  | .array xs => xs
  | _ => []

/-- What `k` items were before `collapse`. -/
def uncollapse (k : ℕ) (v : Janet) : List Janet :=
  if k = 0 then [] else if k = 1 then [v] else v.elements

theorem uncollapse_collapse (xs : List Janet) : uncollapse xs.length (collapse xs) = xs := by
  match xs with
  | [] => rfl
  | [_] => rfl
  | x :: y :: xs =>
    have hcollapse : collapse (x :: y :: xs) = .array (x :: y :: xs) := rfl
    have hzero : (x :: y :: xs).length ≠ 0 := by simp
    have hone : (x :: y :: xs).length ≠ 1 := by simp
    rw [uncollapse, if_neg hzero, if_neg hone, hcollapse, Janet.elements]

theorem collapse_eq_nil {xs : List Janet} (h : ∀ x ∈ xs, x ≠ .nil) : collapse xs = .nil ↔ xs.length = 0 := by
  match xs with
  | [] => simp [collapse]
  | [x] => simpa [collapse] using h x (by simp)
  | x :: y :: xs => simp [collapse]

/-- What all of `as` ask for. -/
def demands (m : ℕ) (as : List Ask) : ℕ := (as.map (Ask.demand m)).sum

/-- `:rest` asks for all there is, however much that was before. -/
theorem min_demands {k m : ℕ} (hk : k ≤ m) (as : List Ask) : min k (demands m as) = min k (demands k as) := by
  induction as with
  | nil => rfl
  | cons a as ih =>
    simp only [demands, List.map_cons, List.sum_cons] at ih ⊢
    cases a with
    | items n => simp only [Ask.demand]; omega
    | rest => simp only [Ask.demand]; omega

theorem min_demands_cons (m : ℕ) (a : Ask) (as : List Ask) :
    min m (demands m (a :: as)) = min m (a.demand m) + min (m - a.demand m) (demands (m - a.demand m) as) := by
  rw [← min_demands (Nat.sub_le m _) as, demands, List.map_cons, List.sum_cons, ← demands]
  omega

section reads
variable (rt : Runtime) (tb : Tables) (dup : ℤ → Except String ℤ)

def cfunMessageRewind : Read Janet := do
  rewind rt
  pure .nil

/-- `message-read` again and again. -/
def reads : List Ask → Read (List Janet)
  | [] => pure []
  | a :: as => do
    let v ← cfunMessageRead rt tb dup a.what
    let vs ← reads as
    pure (v :: vs)

variable {rt tb dup} {b is : List Item} {outer : List (List Item)} {rec : Read (Option Janet)}

theorem readUpTo_items (hend : ∀ outer, rec (cursorAt b ([] :: outer)) = .ok none (cursorAt b ([] :: outer))) :
    ∀ (k : ℕ) {is : List Item}, (∀ i ∈ is, Reads tb dup rec b i) →
      readUpTo rec k (cursorAt b (is :: outer)) =
        .ok (decodeAll tb dup (is.take k)) (cursorAt b (is.drop k :: outer))
  | 0, _, _ => rfl
  | k + 1, [], _ => by
    rw [readUpTo]
    exact read_bind (hend outer) rfl
  | k + 1, i :: is, hall => by
    rw [readUpTo, List.take_succ_cons, List.drop_succ_cons, decodeAll]
    refine read_bind (hall i (by simp) is outer) ?_
    exact read_bind (readUpTo_items hend k fun j hj => hall j (List.mem_cons_of_mem _ hj)) rfl

/-- A read that does not rewind returns the next items and moves over them. -/
theorem messageRead_next (hty : ∀ i ∈ is, ∃ t, Item.HasTy t i) (hread : validItems (readable dup) is = true)
    (a : Ask) : cfunMessageRead rt tb dup a.what (cursorAt b [is]) =
      .ok (collapse (decodeAll tb dup (is.take (a.demand is.length))))
        (cursorAt b [is.drop (a.demand is.length)]) := by
  have hdef : (cursorAt b [is]).fuel = sizeAll b + sizeAll [is].flatten + 2 := rfl
  rw [List.flatten_cons, List.flatten_nil, List.append_nil] at hdef
  have hlen := length_le_size is
  have hall : ∀ j ∈ is, Reads tb dup (readCompleteType rt tb dup (cursorAt b [is]).fuel) b j := by
    intro j hj
    obtain ⟨u, hu⟩ := hty j hj
    have := size_le_all hj
    exact readCompleteType_item _ hu (valid_of_all hread hj) (by omega)
  have hend : ∀ outer, readCompleteType rt tb dup (cursorAt b [is]).fuel (cursorAt b ([] :: outer)) =
      .ok none (cursorAt b ([] :: outer)) := fun outer => readCompleteType_end (by omega) outer
  cases a with
  | items n =>
    rw [Ask.what, Ask.demand, cfunMessageRead]
    refine read_bind (s := cursorAt b [is]) rfl ?_
    have hpos : ¬ (n : ℤ) < 0 := by omega
    simp only [hpos, if_false, Int.toNat_natCast]
    exact read_bind (readUpTo_items hend n hall) rfl
  | rest =>
    rw [Ask.what, Ask.demand, cfunMessageRead, List.take_length, List.drop_length]
    refine read_bind (s := cursorAt b [is]) rfl ?_
    exact read_bind (readWhile_items tb dup hend hall (by omega)) rfl

theorem decodeAll_ne_nil : ∀ {is : List Item}, validItems (readable dup) is = true →
    ∀ x ∈ decodeAll tb dup is, x ≠ .nil
  | [], _, x, hx => by
    rw [decodeAll] at hx
    exact absurd hx List.not_mem_nil
  | i :: is, hread, x, hx => by
    rw [validItems, Bool.and_eq_true] at hread
    rw [decodeAll] at hx
    rcases List.mem_cons.mp hx with rfl | hx
    · exact decode_ne_nil tb hread.1
    · exact decodeAll_ne_nil hread.2 x hx

theorem decodeAll_append (is js : List Item) :
    decodeAll tb dup (is ++ js) = decodeAll tb dup is ++ decodeAll tb dup js := by
  induction is with
  | nil => rfl
  | cons i is ih => rw [List.cons_append, decodeAll, ih, decodeAll, List.cons_append]

theorem validItems_append {valid : Basic → Bool} (is js : List Item) :
    validItems valid (is ++ js) = (validItems valid is && validItems valid js) := by
  induction is with
  | nil => rw [List.nil_append, validItems, Bool.true_and]
  | cons i is ih => rw [List.cons_append, validItems, ih, validItems, Bool.and_assoc]

variable (rt b) in
/-- Any sequence of reads goes on from where the cursor stands. -/
theorem reads_next : ∀ (as : List Ask) {is : List Item}, (∀ i ∈ is, ∃ t, Item.HasTy t i) →
    validItems (readable dup) is = true →
    ∃ vs, reads rt tb dup as (cursorAt b [is]) = .ok vs (cursorAt b [is.drop (demands is.length as)]) ∧
      List.Forall₂ (fun c v => v = .nil ↔ c = 0) (counts is.length as) vs ∧
      (List.zipWith uncollapse (counts is.length as) vs).flatten =
        decodeAll tb dup (is.take (demands is.length as))
  | [], is, _, _ => ⟨[], rfl, .nil, rfl⟩
  | a :: as, is, hty, hread => by
    have hsplit := List.take_append_drop (a.demand is.length) is
    have hvalid := hread
    rw [← hsplit, validItems_append, Bool.and_eq_true] at hvalid
    obtain ⟨vs, hreads, hnil, hflat⟩ := reads_next as
      (fun i hi => hty i (List.mem_of_mem_drop hi)) hvalid.2
    -- what the first read returns
    have hcount : (decodeAll tb dup (is.take (a.demand is.length))).length = min is.length (a.demand is.length) := by
      rw [decodeAll_length, List.length_take, Nat.min_comm]
    have htotal := min_demands_cons is.length a as
    rw [List.length_drop] at hreads hnil hflat
    refine ⟨collapse (decodeAll tb dup (is.take (a.demand is.length))) :: vs, ?_, ?_, ?_⟩
    · rw [reads]
      refine read_bind (messageRead_next hty hread a) (read_bind hreads ?_)
      have hdrop : (is.drop (a.demand is.length)).drop (demands (is.length - a.demand is.length) as) =
          is.drop (demands is.length (a :: as)) := by
        rw [List.drop_drop, List.drop_eq_drop_iff]
        omega
      rw [hdrop]
      rfl
    · rw [counts]
      refine .cons ?_ hnil
      rw [← hcount]
      exact collapse_eq_nil (decodeAll_ne_nil hvalid.1)
    · rw [counts, List.zipWith_cons_cons, List.flatten_cons, hflat, ← hcount, uncollapse_collapse,
        ← decodeAll_append]
      have htake : is.take (demands is.length (a :: as)) = is.take (a.demand is.length) ++
          (is.drop (a.demand is.length)).take (demands (is.length - a.demand is.length) as) := by
        rw [← List.take_add, List.take_eq_take_iff]
        omega
      rw [htake]

theorem decodeAll_take (k : ℕ) (is : List Item) :
    decodeAll tb dup (is.take k) = (decodeAll tb dup is).take k := by
  induction is generalizing k with
  | nil => rw [List.take_nil, decodeAll, List.take_nil]
  | cons i is ih =>
    cases k with
    | zero => rfl
    | succ k => rw [List.take_succ_cons, decodeAll, ih, decodeAll, List.take_succ_cons]

end reads

end JanetSdbus.Message
