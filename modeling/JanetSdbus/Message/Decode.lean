import JanetSdbus.Message.Read
import JanetSdbus.Message.Walker

/-! What the decoder returns.

    `decode i` is the Janet value of the item `i`, by recursion on the item. On a well-typed item
    whose descriptors can be duplicated `read_complete_type` returns `decode i` and moves over `i`
    (`readCompleteType_item`); the calls of the encoder build the item they encode
    (`build_calls`). -/

namespace JanetSdbus.Message
open DBus

/-! ### Decoding -/

section decode
variable (tb : Tables) (dup : ℤ → Except String ℤ)

/-- A descriptor becomes a stream of its copy. -/
def basicValue : Basic → Janet
  | .fd n =>
    match dup n with
    | .ok copy => .stream false copy
    | .error _ => .nil
  | x => ofBasic x

mutual
def decode : Item → Janet
  | .basic x => basicValue dup x
  | .container .variant s is => .tuple (signatureString s :: decodeAll is)
  | .container .struct _ is => .tuple (decodeAll is)
  | .container .array s is =>
    if s.head? = some '{' then .table (decodeEntries [] is) else .array (decodeAll is)
  | .container .dictEntry _ is => .tuple (decodeAll is)
def decodeAll : List Item → List Janet
  | [] => []
  | i :: is => decode i :: decodeAll is
/-- The entries, put into a table in order. -/
def decodeEntries : List (Janet × Janet) → List Item → List (Janet × Janet)
  | tbl, [] => tbl
  | tbl, .container .dictEntry _ [.basic x, i] :: es =>
    decodeEntries (tb.put tbl (basicValue dup x) (decode i)) es
  | tbl, _ :: es => decodeEntries tbl es
end

end decode

/-! ### Items with valid values -/

mutual
/-- The basic values in an item are all valid. -/
def validItem (valid : Basic → Bool) : Item → Bool
  | .basic x => valid x
  | .container _ _ is => validItems valid is
def validItems (valid : Basic → Bool) : List Item → Bool
  | [] => true
  | i :: is => validItem valid i && validItems valid is
end

mutual
theorem validItem_mono {valid valid' : Basic → Bool} (h : ∀ x, valid x = true → valid' x = true) :
    ∀ i : Item, validItem valid i = true → validItem valid' i = true
  | .basic x, hi => by
    rw [validItem] at hi ⊢
    exact h x hi
  | .container _ _ is, hi => by
    rw [validItem] at hi ⊢
    exact validItems_mono h is hi
theorem validItems_mono {valid valid' : Basic → Bool} (h : ∀ x, valid x = true → valid' x = true) :
    ∀ is : List Item, validItems valid is = true → validItems valid' is = true
  | [], _ => by rw [validItems]
  | i :: is, hi => by
    rw [validItems, Bool.and_eq_true] at hi ⊢
    exact ⟨validItem_mono h i hi.1, validItems_mono h is hi.2⟩
end

mutual
theorem validItem_of_all {valid : Basic → Bool} (h : ∀ x, valid x = true) : ∀ i : Item, validItem valid i = true
  | .basic x => by
    rw [validItem]
    exact h x
  | .container _ _ is => by
    rw [validItem]
    exact validItems_of_all h is
theorem validItems_of_all {valid : Basic → Bool} (h : ∀ x, valid x = true) :
    ∀ is : List Item, validItems valid is = true
  | [] => by rw [validItems]
  | i :: is => by
    rw [validItems, Bool.and_eq_true]
    exact ⟨validItem_of_all h i, validItems_of_all h is⟩
end

/-- What `read_basic_type` can read. -/
def readable (dup : ℤ → Except String ℤ) : Basic → Bool
  | .fd n => (dup n).isOk
  | _ => true

def notFd (x : Basic) : Bool := x.code ≠ .fd

theorem notFd_ne {x : Basic} (h : notFd x = true) : x.code ≠ .fd := by simpa [notFd] using h

theorem readable_of_notFd {dup : ℤ → Except String ℤ} (x : Basic) (h : notFd x = true) :
    readable dup x = true := by
  cases x with
  | fd n => exact absurd rfl (notFd_ne h)
  | _ => rfl

theorem basicValue_notFd {dup : ℤ → Except String ℤ} {x : Basic} (h : notFd x = true) :
    basicValue dup x = ofBasic x := by
  cases x with
  | fd n => exact absurd rfl (notFd_ne h)
  | _ => rfl

theorem basicValue_ne_nil {dup : ℤ → Except String ℤ} {x : Basic} (h : readable dup x = true) :
    basicValue dup x ≠ .nil := by
  cases x with
  | fd n =>
    rw [readable] at h
    rw [basicValue]
    cases hn : dup n with
    | ok copy => simp
    | error msg => simp [hn, Except.isOk, Except.toBool] at h
  | _ => simp [basicValue, ofBasic, intNumber]

theorem basicValue_isAtom (dup : ℤ → Except String ℤ) (x : Basic) : (basicValue dup x).isAtom = true := by
  cases x with
  | fd n =>
    rw [basicValue]
    cases dup n <;> rfl
  | _ => rfl

/-! ### Typing -/

/-- Induction on the depth of a value. -/
theorem depth_induct {P : Janet → Prop} (h : ∀ v, (∀ x, x.depth < v.depth → P x) → P v) (v : Janet) :
    P v := by
  have hall : ∀ n v, v.depth < n → P v := by
    intro n
    induction n with
    | zero => intro v hv; exact absurd hv (Nat.not_lt_zero _)
    | succ n ih => intro v hv; exact h v fun x hx => ih x (by omega)
  exact hall _ v (Nat.lt_succ_self _)

variable {rt : Runtime}

theorem denoteEach_hasTy {t : Ty} : ∀ {xs : List Janet} {is : List Item},
    (∀ x ∈ xs, ∀ t i, denote rt t x = some i → Item.HasTy t i) → denoteEach rt t xs = some is →
    Item.EachHasTy t is
  | [], is, _, h => by
    rw [denoteEach] at h
    obtain rfl := Option.some.inj h
    exact .nil t
  | x :: xs, is, hall, h => by
    rw [denoteEach] at h
    obtain ⟨i, hi, h⟩ := Option.bind_eq_some_iff.mp h
    obtain ⟨js, hjs, rfl⟩ := Option.map_eq_some_iff.mp h
    exact .cons t i js (hall x (by simp) t i hi)
      (denoteEach_hasTy (fun y hy => hall y (List.mem_cons_of_mem _ hy)) hjs)

theorem denoteFields_hasTy : ∀ {ts : List Ty} {xs : List Janet} {is : List Item},
    (∀ x ∈ xs, ∀ t i, denote rt t x = some i → Item.HasTy t i) → denoteFields rt ts xs = some is →
    Item.HaveTys ts is
  | [], [], is, _, h => by
    rw [denoteFields] at h
    obtain rfl := Option.some.inj h
    exact .nil
  | [], _ :: _, _, _, h => by simp [denoteFields] at h
  | _ :: _, [], _, _, h => by simp [denoteFields] at h
  | t :: ts, x :: xs, is, hall, h => by
    rw [denoteFields] at h
    obtain ⟨i, hi, h⟩ := Option.bind_eq_some_iff.mp h
    obtain ⟨js, hjs, rfl⟩ := Option.map_eq_some_iff.mp h
    exact .cons t ts i js (hall x (by simp) t i hi)
      (denoteFields_hasTy (fun y hy => hall y (List.mem_cons_of_mem _ hy)) hjs)

theorem denoteEntries_hasTy {k : Code} {t : Ty} : ∀ {kvs : List (Janet × Janet)} {es : List Item},
    (∀ kv ∈ kvs, ∀ t i, denote rt t kv.2 = some i → Item.HasTy t i) →
    denoteEntries rt k t kvs = some es → Item.EntriesHaveTy k t es
  | [], es, _, h => by
    rw [denoteEntries] at h
    obtain rfl := Option.some.inj h
    exact .nil k t
  | (key, v) :: kvs, es, hall, h => by
    rw [denoteEntries] at h
    obtain ⟨x, hx, h⟩ := Option.bind_eq_some_iff.mp h
    obtain ⟨i, hi, h⟩ := Option.bind_eq_some_iff.mp h
    obtain ⟨fs, hfs, rfl⟩ := Option.map_eq_some_iff.mp h
    obtain rfl := convert_code hx
    exact .cons x t i fs (hall (key, v) (by simp) t i hi)
      (denoteEntries_hasTy (fun y hy => hall y (List.mem_cons_of_mem _ hy)) hfs)

theorem bytesItem_hasTy (bs : List UInt8) : Item.HasTy (.array (.basic .byte)) (bytesItem bs) := by
  have heach : Item.EachHasTy (.basic .byte) (bs.map fun b => Item.basic (.byte b)) := by
    induction bs with
    | nil => exact .nil _
    | cons b bs ih => exact .cons _ _ _ (.basic (.byte b)) ih
  exact .array (.basic .byte) _ heach

theorem isByte_eq {t : Ty} (h : isByte t = true) : t = .basic .byte := by
  cases t with
  | basic c => cases c <;> first | rfl | exact absurd h (by decide)
  | _ => exact absurd h (by simp [isByte])

/-- What a value stands for as a `t` is a value of type `t`. -/
theorem denote_hasTy : ∀ (v : Janet) (t : Ty) (i : Item), denote rt t v = some i → Item.HasTy t i := by
  refine depth_induct ?_
  intro v hrec t i h
  cases t with
  | basic c =>
    rw [denote] at h
    obtain ⟨x, hx, rfl⟩ := Option.map_eq_some_iff.mp h
    obtain rfl := convert_code hx
    exact .basic x
  | variant =>
    obtain ⟨bs, x, t, j, rfl, _, hj, rfl⟩ := denote_variant h
    exact .variant t j (hrec x (depth_indexed rfl (by simp)) t j hj)
  | array t =>
    cases ht : isByte t with
    | true =>
      rw [denote_bytes ht] at h
      obtain ⟨bs, _, rfl⟩ := Option.map_eq_some_iff.mp h
      rw [isByte_eq ht]
      exact bytesItem_hasTy bs
    | false =>
      rw [denote_array ht] at h
      obtain ⟨xs, hxs, h⟩ := Option.bind_eq_some_iff.mp h
      obtain ⟨is, his, rfl⟩ := Option.map_eq_some_iff.mp h
      exact .array t is (denoteEach_hasTy (fun x hx => hrec x (depth_indexed hxs hx)) his)
  | dict k t =>
    rw [denote_dict] at h
    obtain ⟨kvs, hkvs, h⟩ := Option.bind_eq_some_iff.mp h
    obtain ⟨es, hes, rfl⟩ := Option.map_eq_some_iff.mp h
    exact .dict k t es (denoteEntries_hasTy (fun kv hkv => hrec kv.2 (depth_dictionary hkvs hkv)) hes)
  | struct t ts =>
    rw [denote_struct] at h
    obtain ⟨xs, hxs, h⟩ := Option.bind_eq_some_iff.mp h
    obtain ⟨is, his, rfl⟩ := Option.map_eq_some_iff.mp h
    exact .struct t ts is (denoteFields_hasTy (fun x hx => hrec x (depth_indexed hxs hx)) his)

/-! ### Building -/

theorem Building.run_append : ∀ {b m : Building} {cs ds : List Call}, b.run cs = some m →
    b.run (cs ++ ds) = m.run ds
  | b, m, [], ds, h => by rw [Option.some.inj h, List.nil_append]
  | b, m, c :: cs, ds, h => by
    rw [Building.run] at h
    obtain ⟨b', hb', h⟩ := Option.bind_eq_some_iff.mp h
    rw [List.cons_append, Building.run, hb', Option.bind_some, Building.run_append h]

mutual
/-- The calls for a well-typed item build it, wherever they are made. -/
theorem run_calls : ∀ {t : Ty} {i : Item}, Item.HasTy t i → ∀ b : Building,
    b.run (calls i) = some { b with items := b.items ++ [i] }
  | _, _, .basic x, b => by
    rw [calls]
    cases x <;> rfl
  | _, _, .variant t i hi, b => by
    have hrun := run_calls hi ⟨[], (.variant, t.render, b.items) :: b.outer⟩
    simp only [calls, callsAll, List.append_nil]
    rw [if_neg (by simp), Building.run, Building.step, Option.bind_some, Building.run_append hrun]
    rfl
  | _, _, .array t is his, b => by
    cases ht : isByte t with
    | true =>
      obtain rfl := isByte_eq ht
      obtain ⟨bs, rfl⟩ := bytes_of_each his
      have hcalls := calls_bytes bs
      rw [bytesItem] at hcalls
      rw [Ty.render, hcalls]
      rfl
    | false =>
      have hrun := run_callsEach his ⟨[], (.array, t.render, b.items) :: b.outer⟩
      rw [calls_array ht, List.nil_append, List.cons_append, List.nil_append, Building.run,
        Building.step, Option.bind_some, Building.run_append hrun]
      rfl
  | _, _, .dict k v es hes, b => by
    have hrun := run_callsEntries hes ⟨[], (.array, renderEntry k v, b.items) :: b.outer⟩
    rw [calls_dict, List.nil_append, List.cons_append, List.nil_append, Building.run, Building.step,
      Option.bind_some, Building.run_append hrun]
    rfl
  | _, _, .struct t ts is his, b => by
    have hrun := run_callsFields his ⟨[], (.struct, renderAll (t :: ts), b.items) :: b.outer⟩
    simp only [calls]
    rw [if_neg (by simp), Building.run, Building.step, Option.bind_some, Building.run_append hrun]
    rfl
theorem bytes_of_each : ∀ {is : List Item}, Item.EachHasTy (.basic .byte) is →
    ∃ bs : List UInt8, is = bs.map fun b => .basic (.byte b)
  | _, .nil _ => ⟨[], rfl⟩
  | _, .cons _ i is hi his => by
    obtain ⟨bs, rfl⟩ := bytes_of_each his
    generalize ht : Ty.basic .byte = t at hi
    cases hi with
    | basic x =>
      cases x with
      | byte b => exact ⟨b :: bs, rfl⟩
      | _ => simp [Basic.code] at ht
    | _ => simp at ht
theorem run_callsEach : ∀ {t : Ty} {is : List Item}, Item.EachHasTy t is → ∀ b : Building,
    b.run (callsAll is) = some { b with items := b.items ++ is }
  | _, _, .nil _, b => by rw [callsAll, Building.run, List.append_nil]
  | _, _, .cons t i is hi his, b => by
    rw [callsAll, Building.run_append (run_calls hi b), run_callsEach his]
    simp
theorem run_callsEntries : ∀ {k : Code} {v : Ty} {es : List Item}, Item.EntriesHaveTy k v es →
    ∀ b : Building, b.run (callsAll es) = some { b with items := b.items ++ es }
  | _, _, _, .nil _ _, b => by rw [callsAll, Building.run, List.append_nil]
  | _, _, _, .cons x v i es hi hes, b => by
    have hentry : b.run (calls (entryItem x.code v x i)) =
        some { b with items := b.items ++ [entryItem x.code v x i] } := by
      have hkey := run_calls (.basic x) ⟨[], (.dictEntry, x.code.char :: v.render, b.items) :: b.outer⟩
      rw [calls] at hkey
      have hval := run_calls hi
        ⟨[] ++ [.basic x], (.dictEntry, x.code.char :: v.render, b.items) :: b.outer⟩
      rw [calls_entry, List.cons_append, List.nil_append, Building.run, Building.step,
        Option.bind_some, Building.run_append hkey, Building.run_append hval]
      rfl
    rw [callsAll, Building.run_append hentry, run_callsEntries hes]
    simp
theorem run_callsFields : ∀ {ts : List Ty} {is : List Item}, Item.HaveTys ts is → ∀ b : Building,
    b.run (callsAll is) = some { b with items := b.items ++ is }
  | _, _, .nil, b => by rw [callsAll, Building.run, List.append_nil]
  | _, _, .cons t ts i is hi his, b => by
    rw [callsAll, Building.run_append (run_calls hi b), run_callsFields his]
    simp
end

/-- A message built from the encoding of some items has these items as its body. -/
theorem build_calls {ts : List Ty} {is : List Item} (h : Item.HaveTys ts is) :
    build (callsAll is) = some is := by
  rw [build, run_callsFields h, Option.bind_some, if_pos rfl, List.nil_append]

/-! ### Reading -/

section reading
variable {α β : Type} {tb : Tables} {dup : ℤ → Except String ℤ}

theorem read_bind {x : Read α} {f : α → Read β} {a : α} {b : β} {r s r' : Reader} (hx : x r = .ok a s)
    (hf : f a s = .ok b r') : (x >>= f) r = .ok b r' := by
  simp [bind, EStateM.bind, hx, hf]

/-- A sealed message with body `b`, the cursor before `ahead`. -/
def cursorAt (b : List Item) (ahead : List (List Item)) : Reader := ⟨b, true, ahead⟩

variable {b rest : List Item} {outer : List (List Item)}

theorem peek_item (i : Item) : messagePeek rt (cursorAt b ((i :: rest) :: outer)) =
    .ok (some (match i with | .basic x => (x.code.char, []) | .container c s _ => (containerChar c, s)))
      (cursorAt b ((i :: rest) :: outer)) := by
  cases i <;> rfl

theorem peek_end : messagePeek rt (cursorAt b ([] :: outer)) = .ok none (cursorAt b ([] :: outer)) := rfl

theorem enter_ok (c : Container) (s : List Char) (is : List Item) :
    enterContainer rt c s (cursorAt b ((.container c s is :: rest) :: outer)) =
      .ok () (cursorAt b (is :: rest :: outer)) := by
  have heq : enterContainer rt c s (cursorAt b ((.container c s is :: rest) :: outer)) =
      (if c = c ∧ s = s then set (cursorAt b (is :: rest :: outer))
        else readFailed rt "sd_bus_message_enter_container" ENXIO : Read Unit)
        (cursorAt b ((.container c s is :: rest) :: outer)) := rfl
  rw [heq, if_pos ⟨rfl, rfl⟩]
  rfl

theorem exit_ok : exitContainer rt (cursorAt b ([] :: rest :: outer)) =
    .ok () (cursorAt b (rest :: outer)) := rfl

theorem readBasicType_ok {x : Basic} (hx : readable dup x = true) :
    readBasicType rt dup x.code.char (cursorAt b ((.basic x :: rest) :: outer)) =
      .ok (basicValue dup x) (cursorAt b (rest :: outer)) := by
  cases x with
  | fd n =>
    have heq : readBasicType rt dup Code.fd.char (cursorAt b ((.basic (.fd n) :: rest) :: outer)) =
        (match dup n with
          | .ok copy => pure (.stream false copy)
          | .error msg => readPanic msg : Read Janet) (cursorAt b (rest :: outer)) := rfl
    rw [readable] at hx
    cases hn : dup n with
    | error msg => simp [hn, Except.isOk, Except.toBool] at hx
    | ok copy =>
      simp only [hn] at heq
      rw [basicValue, hn]
      exact heq
  | _ => rfl

theorem readBasicType_error {n : ℤ} {msg : String} (hn : dup n = .error msg) :
    readBasicType rt dup Code.fd.char (cursorAt b ((.basic (.fd n) :: rest) :: outer)) =
      readPanic msg (cursorAt b (rest :: outer)) := by
  have heq : readBasicType rt dup Code.fd.char (cursorAt b ((.basic (.fd n) :: rest) :: outer)) =
      (match dup n with
        | .ok copy => pure (.stream false copy)
        | .error msg => readPanic msg : Read Janet) (cursorAt b (rest :: outer)) := rfl
  rw [heq, hn]

/-- An item of size less than `n` is read by `rec` as its decoding. -/
def Reads (tb : Tables) (dup : ℤ → Except String ℤ) (rec : Read (Option Janet)) (b : List Item) (i : Item) : Prop :=
  ∀ rest outer, rec (cursorAt b ((i :: rest) :: outer)) =
    .ok (some (decode tb dup i)) (cursorAt b (rest :: outer))

variable {rec : Read (Option Janet)}

theorem readWhile_items (tb : Tables) (dup : ℤ → Except String ℤ) (hend : ∀ outer, rec (cursorAt b ([] :: outer)) = .ok none (cursorAt b ([] :: outer))) :
    ∀ {is : List Item} {n : ℕ}, (∀ i ∈ is, Reads tb dup rec b i) → is.length < n →
      readWhile rec n (cursorAt b (is :: outer)) = .ok (decodeAll tb dup is) (cursorAt b ([] :: outer))
  | [], n + 1, _, _ => by
    rw [readWhile, decodeAll]
    exact read_bind (hend outer) rfl
  | i :: is, n + 1, hall, hn => by
    rw [readWhile, decodeAll]
    refine read_bind (hall i (by simp) is outer) ?_
    exact read_bind (readWhile_items tb dup hend (fun j hj => hall j (List.mem_cons_of_mem _ hj))
      (Nat.lt_of_succ_lt_succ hn)) rfl

theorem readEntries_items {k : Code} {v : Ty} : ∀ {es : List Item} {n : ℕ}
    {tbl : List (Janet × Janet)}, Item.EntriesHaveTy k v es → validItems (readable dup) es = true →
      (∀ x i, entryItem k v x i ∈ es → Reads tb dup rec b i) → es.length < n →
      readEntries rt tb dup rec n tbl (cursorAt b (es :: outer)) =
        .ok (decodeEntries tb dup tbl es) (cursorAt b ([] :: outer))
  | _, n + 1, tbl, .nil _ _, _, _, _ => by
    rw [readEntries, decodeEntries]
    exact read_bind peek_end rfl
  | _, n + 1, tbl, .cons x _ i es _ hes, hread, hall, hn => by
    rw [validItems, Bool.and_eq_true] at hread
    have hx : readable dup x = true := by
      have hentry := hread.1
      simp only [entryItem, validItem, validItems, Bool.and_eq_true] at hentry
      exact hentry.1
    rw [readEntries, entryItem, decodeEntries]
    refine read_bind (peek_item _) ?_
    refine read_bind (enter_ok .dictEntry (x.code.char :: v.render) [.basic x, i]) ?_
    refine read_bind (readBasicType_ok hx) ?_
    refine read_bind (hall x i (by simp [entryItem]) [] _) ?_
    refine read_bind exit_ok ?_
    exact readEntries_items hes hread.2 (fun y j hj => hall y j (List.mem_cons_of_mem _ hj))
      (Nat.lt_of_succ_lt_succ hn)

theorem size_le_all : ∀ {is : List Item} {i : Item}, i ∈ is → Item.size i ≤ sizeAll is
  | j :: is, i, h => by
    rw [sizeAll]
    rcases List.mem_cons.mp h with rfl | h
    · omega
    · have := size_le_all h
      omega

theorem length_le_size (is : List Item) : is.length ≤ sizeAll is := by
  induction is with
  | nil => exact Nat.le_refl _
  | cons i is ih =>
    have hpos : 0 < Item.size i := by cases i <;> simp [Item.size]
    rw [sizeAll, List.length_cons]
    omega

theorem valid_of_all {valid : Basic → Bool} : ∀ {is : List Item} {i : Item},
    validItems valid is = true → i ∈ is → validItem valid i = true
  | j :: is, i, h, hi => by
    rw [validItems, Bool.and_eq_true] at h
    rcases List.mem_cons.mp hi with rfl | hi
    · exact h.1
    · exact valid_of_all h.2 hi

theorem each_hasTy : ∀ {t : Ty} {is : List Item}, Item.EachHasTy t is → ∀ i ∈ is, ∃ t, Item.HasTy t i
  | _, _, .nil _, _, h => by simp at h
  | _, _, .cons t i is hi his, j, h => by
    rcases List.mem_cons.mp h with rfl | h
    · exact ⟨t, hi⟩
    · exact each_hasTy his j h

theorem fields_hasTy : ∀ {ts : List Ty} {is : List Item}, Item.HaveTys ts is → ∀ i ∈ is, ∃ t, Item.HasTy t i
  | _, _, .nil, _, h => by simp at h
  | _, _, .cons t _ i _ hi his, j, h => by
    rcases List.mem_cons.mp h with rfl | h
    · exact ⟨t, hi⟩
    · exact fields_hasTy his j h

theorem entries_hasTy : ∀ {k : Code} {v : Ty} {es : List Item}, Item.EntriesHaveTy k v es →
    ∀ e ∈ es, ∃ x i, e = entryItem k v x i ∧ x.code = k ∧ Item.HasTy v i
  | _, _, _, .nil _ _, _, h => by simp at h
  | _, _, _, .cons x v i es hi hes, e, h => by
    rcases List.mem_cons.mp h with rfl | h
    · exact ⟨x, i, rfl, rfl, hi⟩
    · exact entries_hasTy hes e h

theorem readCompleteType_end {n : ℕ} (hn : 0 < n) (outer : List (List Item)) :
    readCompleteType rt tb dup n (cursorAt b ([] :: outer)) = .ok none (cursorAt b ([] :: outer)) := by
  obtain ⟨m, rfl⟩ : ∃ m, n = m + 1 := ⟨n - 1, by omega⟩
  rw [readCompleteType]
  exact read_bind peek_end rfl

/-- `read_complete_type` returns the decoding of the item it stands at and moves over it. -/
theorem readCompleteType_item : ∀ (n : ℕ) {t : Ty} {i : Item}, Item.HasTy t i →
    validItem (readable dup) i = true → Item.size i < n → Reads tb dup (readCompleteType rt tb dup n) b i
  | 0, _, _, _, _, hn => absurd hn (Nat.not_lt_zero _)
  | n + 1, t, i, hty, hread, hn => by
    intro rest outer
    rw [readCompleteType]
    refine read_bind (peek_item i) ?_
    cases hty with
    | basic x =>
      rw [validItem] at hread
      refine read_bind ?_ rfl
      rw [readBranch, if_pos (isBasicType_char _), decode]
      exact readBasicType_ok hread
    | variant t j hj =>
      rw [Item.size, sizeAll, sizeAll] at hn
      rw [validItem, validItems, validItems, Bool.and_true] at hread
      refine read_bind ?_ rfl
      simp only [containerChar]
      have hv : 'v' = containerChar .variant := rfl
      rw [readBranch, if_neg (by decide), if_pos hv, readVariantType, decode, decodeAll, decodeAll]
      refine read_bind (enter_ok .variant t.render [j]) ?_
      refine read_bind (readCompleteType_item n hj hread (by omega) [] _) ?_
      exact read_bind exit_ok rfl
    | array t is his =>
      rw [Item.size] at hn
      rw [validItem] at hread
      have hlen := length_le_size is
      have hhead := t.render_no_entry
      refine read_bind ?_ rfl
      simp only [containerChar]
      rw [readBranch, if_neg (by decide), if_neg (by decide), if_neg (by decide),
        if_neg fun h => hhead h.2, if_pos rfl, readArrayType, decode, if_neg hhead]
      refine read_bind (enter_ok .array t.render is) ?_
      refine read_bind (readWhile_items tb dup (readCompleteType_end (by omega)) ?_ (by omega)) ?_
      · intro j hj
        obtain ⟨u, hu⟩ := each_hasTy his j hj
        have := size_le_all hj
        exact readCompleteType_item n hu (valid_of_all hread hj) (by omega)
      · exact read_bind exit_ok rfl
    | dict k v es hes =>
      rw [Item.size] at hn
      rw [validItem] at hread
      have hlen := length_le_size es
      have hhead : (renderEntry k v).head? = some '{' := rfl
      refine read_bind ?_ rfl
      simp only [containerChar]
      rw [readBranch, if_neg (by decide), if_neg (by decide), if_neg (by decide),
        if_pos ⟨rfl, hhead⟩, readDictType, decode, if_pos hhead]
      refine read_bind (enter_ok .array (renderEntry k v) es) ?_
      refine read_bind (readEntries_items hes hread ?_ (by omega)) ?_
      · intro x j hj
        obtain ⟨x', j', heq, _, hty⟩ := entries_hasTy hes _ hj
        have hsize := size_le_all hj
        have hread' := valid_of_all hread hj
        simp only [entryItem, Item.container.injEq, List.cons.injEq, Item.basic.injEq] at heq
        obtain ⟨_, _, rfl, rfl, _⟩ := heq
        simp only [entryItem, Item.size, sizeAll] at hsize
        simp only [entryItem, validItem, validItems, Bool.and_eq_true] at hread'
        exact readCompleteType_item n hty hread'.2.1 (by omega)
      · exact read_bind exit_ok rfl
    | struct t ts is his =>
      rw [Item.size] at hn
      rw [validItem] at hread
      have hlen := length_le_size is
      refine read_bind ?_ rfl
      simp only [containerChar]
      have hr : 'r' = containerChar .struct := rfl
      rw [readBranch, if_neg (by decide), if_neg (by decide), if_pos hr, readStructType, decode]
      refine read_bind (enter_ok .struct (renderAll (t :: ts)) is) ?_
      refine read_bind (readWhile_items tb dup (readCompleteType_end (by omega)) ?_ (by omega)) ?_
      · intro j hj
        obtain ⟨u, hu⟩ := fields_hasTy his j hj
        have := size_le_all hj
        exact readCompleteType_item n hu (valid_of_all hread hj) (by omega)
      · exact read_bind exit_ok rfl

variable (rt tb) in
/-- `message-read :all`, wherever the cursor stands, and it ends at the end. -/
theorem messageRead_all_ends {ts : List Ty} {is : List Item} (hty : Item.HaveTys ts is)
    (hread : validItems (readable dup) is = true) (ahead : List (List Item)) :
    cfunMessageRead rt tb dup .all (cursorAt is ahead) =
      .ok (collapse (decodeAll tb dup is)) (cursorAt is [[]]) := by
  have hlen := length_le_size is
  have hfuel : sizeAll is + 2 ≤ (cursorAt is ahead).fuel := by
    have hdef : (cursorAt is ahead).fuel = sizeAll is + sizeAll ahead.flatten + 2 := rfl
    omega
  rw [cfunMessageRead]
  refine read_bind (s := cursorAt is ahead) rfl ?_
  refine read_bind (s := cursorAt is [is]) rfl ?_
  refine read_bind (readWhile_items tb dup (readCompleteType_end (by omega)) ?_ (by omega)) rfl
  intro j hj
  obtain ⟨u, hu⟩ := fields_hasTy hty j hj
  have := size_le_all hj
  exact readCompleteType_item _ hu (valid_of_all hread hj) (by omega)

variable (rt tb) in
theorem messageRead_all {ts : List Ty} {is : List Item} (hty : Item.HaveTys ts is)
    (hread : validItems (readable dup) is = true) (ahead : List (List Item)) :
    ∃ r, cfunMessageRead rt tb dup .all (cursorAt is ahead) = .ok (collapse (decodeAll tb dup is)) r :=
  ⟨_, messageRead_all_ends rt tb hty hread ahead⟩

variable (rt tb dup) in
/-- At the end there is nothing. -/
theorem messageRead_one_end (is : List Item) :
    cfunMessageRead rt tb dup (.count 1) (cursorAt is [[]]) = .ok .nil (cursorAt is [[]]) := by
  have hfuel : 0 < (cursorAt is [[]]).fuel := by
    have hdef : (cursorAt is [[]]).fuel = sizeAll is + sizeAll [[]].flatten + 2 := rfl
    omega
  rw [cfunMessageRead]
  refine read_bind (s := cursorAt is [[]]) rfl ?_
  refine read_bind (a := []) (s := cursorAt is [[]]) ?_ rfl
  rw [Int.toNat_one, readUpTo]
  exact read_bind (readCompleteType_end hfuel []) rfl

variable (rt tb) in
/-- The first item. -/
theorem messageRead_one {t : Ty} {i : Item} (is : List Item) (hty : Item.HasTy t i)
    (hread : validItem (readable dup) i = true) :
    ∃ r, cfunMessageRead rt tb dup (.count 1) (cursorAt (i :: is) [i :: is]) = .ok (decode tb dup i) r := by
  have hfuel : Item.size i < (cursorAt (i :: is) [i :: is]).fuel := by
    have hdef : (cursorAt (i :: is) [i :: is]).fuel = sizeAll (i :: is) + sizeAll [i :: is].flatten + 2 := rfl
    rw [sizeAll] at hdef
    omega
  refine ⟨cursorAt (i :: is) [is], ?_⟩
  rw [cfunMessageRead]
  refine read_bind (s := cursorAt (i :: is) [i :: is]) rfl ?_
  refine read_bind (a := [decode tb dup i]) (s := cursorAt (i :: is) [is]) ?_ rfl
  rw [Int.toNat_one, readUpTo]
  exact read_bind (readCompleteType_item _ hty hread hfuel is []) rfl

end reading

end JanetSdbus.Message
