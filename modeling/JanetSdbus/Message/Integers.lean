import JanetSdbus.Message.Sequence
import JanetSdbus.Message.Total

/-! Integers on the wire.

    A D-Bus integer and a Janet value each denote an integer, or none. `Takes` is the documented
    table: what an integer type is given, and in which range. `message-append` keeps to it
    (`exact_iff`) except at the 64-bit types, which take strings that Janet can scan, and the boxed
    integers of the other signedness bit by bit. -/

namespace JanetSdbus.Message
open DBus Schemes.CMemory

/-- The integer a D-Bus value denotes. -/
def intValue : Basic → Option ℤ
  | .byte x => some x.toNat
  | .int16 x => some x.toInt
  | .uint16 x => some x.toNat
  | .int32 x => some x.toInt
  | .uint32 x => some x.toNat
  | .int64 x => some x.toInt
  | .uint64 x => some x.toNat
  | _ => none

/-- The integer a Janet value denotes. -/
def Janet.toInt : Janet → Option ℤ
  | .number (.fin q) => if q.den = 1 then some q.num else none
  | .s64 x => some x.toInt
  | .u64 x => some x.toNat
  | _ => none

/-- The integer types, with their ranges. -/
def range : Code → Option (ℤ × ℤ)
  | .byte => some (0, 2 ^ 8 - 1)
  | .int16 => some (-2 ^ 15, 2 ^ 15 - 1)
  | .uint16 => some (0, 2 ^ 16 - 1)
  | .int32 => some (-2 ^ 31, 2 ^ 31 - 1)
  | .uint32 => some (0, 2 ^ 32 - 1)
  | .int64 => some (-2 ^ 63, 2 ^ 63 - 1)
  | .uint64 => some (0, 2 ^ 64 - 1)
  | _ => none

/-- Numbers, and for the 64-bit types the boxed integers of the same signedness. -/
def acceptsKind : Code → Janet → Bool
  | _, .number _ => true
  | .int64, .s64 _ | .uint64, .u64 _ => true
  | _, _ => false

/-- `v` is a documented way to write `n` as a `c`. A number is not trusted where doubles are not
    exact. -/
structure Takes (c : Code) (v : Janet) (n : ℤ) : Prop where
  kind : acceptsKind c v = true
  value : v.toInt = some n
  inRange : ∃ lo hi, range c = some (lo, hi) ∧ lo ≤ n ∧ n ≤ hi
  exact : ∀ x, v = .number x → -2 ^ 53 ≤ n ∧ n ≤ 2 ^ 53

/-- The 64-bit types take more than that. -/
def loose (rt : Runtime) : Code → Janet → Bool
  | .int64, .u64 _ | .uint64, .s64 _ => true
  | .int64, .string s => (rt.janet_scan_int64 s).isSome
  | .uint64, .string s => (rt.janet_scan_uint64 s).isSome
  | _, _ => false

/-! ### The conversions -/

section conversions
variable {rt : Runtime} {v : Janet} {lo hi n : ℤ}

theorem intNumber_toInt (n : ℤ) : (intNumber n).toInt = some n := by
  have hden : ((n : ℚ)).den = 1 := rfl
  rw [intNumber, Janet.toInt, if_pos hden]
  rfl

/-- A range check keeps what it lets through, if the type holds that range. -/
theorem integer_takes {c : Code} {mk : ℤ → Basic} {x : Basic} {l u : ℤ} (hc : range c = some (l, u))
    (hl : l ≤ lo ∧ hi ≤ u) (hexact : -2 ^ 53 ≤ lo ∧ hi ≤ 2 ^ 53)
    (hmk : ∀ n, lo ≤ n → n ≤ hi → intValue (mk n) = some n) (h : (v.integer lo hi).map mk = some x) :
    ∃ n, intValue x = some n ∧ Takes c v n := by
  obtain ⟨n, hn, rfl⟩ := Option.map_eq_some_iff.mp h
  obtain ⟨rfl, h₁, h₂⟩ := intNumber_of_integer hn
  have hkind : acceptsKind c (intNumber n) = true := by cases c <;> rfl
  exact ⟨n, hmk n h₁ h₂, hkind, intNumber_toInt n, ⟨l, u, hc, by omega, by omega⟩,
    fun _ _ => ⟨by omega, by omega⟩⟩

/-- What an integer type accepts is what the value denotes, unless the conversion is loose. -/
theorem convert_takes {c : Code} {x : Basic} (hc : (range c).isSome = true) (hv : loose rt c v = false)
    (h : convert rt c v = some x) : ∃ n, intValue x = some n ∧ Takes c v n := by
  have hsigned : ∀ {w : ℕ} (n : ℤ), 0 < w → -2 ^ w ≤ 2 * n → 2 * n < 2 ^ w → (BitVec.ofInt w n).toInt = n := by
    intro w n hw h₁ h₂
    obtain ⟨w, rfl⟩ : ∃ k, w = k + 1 := ⟨w - 1, by omega⟩
    rw [Int.pow_succ] at h₁ h₂
    exact BitVec.toInt_ofInt_eq_self hw (by simp; omega) (by simp; omega)
  have hunsigned : ∀ {w : ℕ} (n : ℤ), 0 ≤ n → n < 2 ^ w → ((BitVec.ofInt w n).toNat : ℤ) = n := by
    intro w n h₁ h₂
    rw [BitVec.toNat_ofInt, Int.toNat_of_nonneg (Int.emod_nonneg _ (by simp))]
    exact Int.emod_eq_of_lt h₁ (by simpa using h₂)
  cases c with
  | byte =>
    rw [convert, checkuint8, Option.map_map] at h
    refine integer_takes rfl (by decide) (by decide) (fun n h₁ h₂ => ?_) h
    rw [Function.comp_apply, intValue, UInt8.toNat_ofNat', Option.some.injEq]
    omega
  | int16 =>
    rw [convert, janetCheckint16, Option.map_map] at h
    refine integer_takes rfl (by decide) (by decide) (fun n h₁ h₂ => ?_) h
    rw [Function.comp_apply, intValue, hsigned n (by decide) (by omega) (by omega)]
  | uint16 =>
    rw [convert, janetCheckuint16, Option.map_map] at h
    refine integer_takes rfl (by decide) (by decide) (fun n h₁ h₂ => ?_) h
    rw [Function.comp_apply, intValue, hunsigned n (by omega) (by omega)]
  | int32 =>
    rw [convert, janetCheckint, Option.map_map] at h
    refine integer_takes rfl (by decide) (by decide) (fun n h₁ h₂ => ?_) h
    rw [Function.comp_apply, intValue, hsigned n (by decide) (by omega) (by omega)]
  | uint32 =>
    rw [convert, janetCheckuint, Option.map_map] at h
    refine integer_takes rfl (by decide) (by decide) (fun n h₁ h₂ => ?_) h
    rw [Function.comp_apply, intValue, hunsigned n (by omega) (by omega)]
  | int64 =>
    cases v with
    | number y =>
      rw [convert, janetUnwrapS64, Option.map_map, MAX_INT_IN_DBL] at h
      refine integer_takes rfl (by decide) (by decide) (fun n h₁ h₂ => ?_) h
      rw [Function.comp_apply, intValue, hsigned n (by decide) (by omega) (by omega)]
    | s64 y =>
      obtain rfl := Option.some.inj h
      have hlt := BitVec.toInt_lt (x := y)
      exact ⟨y.toInt, rfl, rfl, rfl, ⟨_, _, rfl, BitVec.le_toInt y, by omega⟩, fun _ h => absurd h (by simp)⟩
    | u64 y => simp [loose] at hv
    | string s =>
      obtain ⟨y, hy, _⟩ := Option.map_eq_some_iff.mp h
      have hscan : rt.janet_scan_int64 s = some y := hy
      simp [loose, hscan] at hv
    | _ => simp [convert, janetUnwrapS64] at h
  | uint64 =>
    cases v with
    | number y =>
      rw [convert, janetUnwrapU64, Option.map_map, MAX_INT_IN_DBL] at h
      refine integer_takes rfl (by decide) (by decide) (fun n h₁ h₂ => ?_) h
      rw [Function.comp_apply, intValue, hunsigned n (by omega) (by omega)]
    | u64 y =>
      obtain rfl := Option.some.inj h
      have hlt := y.isLt
      exact ⟨y.toNat, rfl, rfl, rfl, ⟨_, _, rfl, by omega, by omega⟩, fun _ h => absurd h (by simp)⟩
    | s64 y => simp [loose] at hv
    | string s =>
      obtain ⟨y, hy, _⟩ := Option.map_eq_some_iff.mp h
      have hscan : rt.janet_scan_uint64 s = some y := hy
      simp [loose, hscan] at hv
    | _ => simp [convert, janetUnwrapU64] at h
  | _ => simp [range] at hc

/-- What the conversion takes loosely is accepted, and no documented way to write an integer. -/
theorem loose_convert {c : Code} (h : loose rt c v = true) :
    (∃ x, convert rt c v = some x) ∧ ∀ n, ¬ Takes c v n := by
  cases c with
  | int64 =>
    cases v with
    | u64 y => exact ⟨⟨_, rfl⟩, fun n hn => absurd hn.kind (by simp [acceptsKind])⟩
    | string s =>
      obtain ⟨y, hy⟩ := Option.isSome_iff_exists.mp h
      refine ⟨⟨.int64 y, ?_⟩, fun n hn => absurd hn.kind (by simp [acceptsKind])⟩
      rw [convert, janetUnwrapS64, hy, Option.map_some]
    | _ => simp [loose] at h
  | uint64 =>
    cases v with
    | s64 y => exact ⟨⟨_, rfl⟩, fun n hn => absurd hn.kind (by simp [acceptsKind])⟩
    | string s =>
      obtain ⟨y, hy⟩ := Option.isSome_iff_exists.mp h
      refine ⟨⟨.uint64 y, ?_⟩, fun n hn => absurd hn.kind (by simp [acceptsKind])⟩
      rw [convert, janetUnwrapU64, hy, Option.map_some]
    | _ => simp [loose] at h
  | _ => cases v <;> simp [loose] at h

theorem ofBasic_toInt (x : Basic) (hx : (intValue x).isSome = true) : (ofBasic x).toInt = intValue x := by
  cases x with
  | byte | int16 | uint16 | int32 | uint32 => exact intNumber_toInt _
  | int64 | uint64 => rfl
  | _ => simp [intValue] at hx

end conversions

/-! ### One basic value -/

section append
variable {rt : Runtime} {sd : SdBus} {c : Code} {v : Janet} {st st' : AppendState}

/-- The verdict on one basic value is that it is appended or raises. -/
theorem judgeData_basic (rt : Runtime) (c : Code) (v : Janet) : judgeData rt [c.char] [v] ≠ .wrong := by
  have hspan : (spanNextType [c.char]).isOk = true := by cases c <;> rfl
  have hbasic : isBasicType ([c.char].headD '\x00') = true := isBasicType_char c
  have hjudge : judge rt (depthAll [v] + 1) false [c.char] v =
      if converts rt [c.char] v then .done .own else .raises := by
    rw [judge, judgeBody, if_neg (by simp), if_neg (by rw [hspan]; decide), if_pos hbasic]
  rw [judgeData, judgeFields, judgeLoop, if_neg (by simp), hjudge]
  have hstride : stride [c.char] = .ok 0 := by cases c <;> rfl
  have hleft : leftover [c.char] [v] = [] := by rw [leftover, hstride]; rfl
  cases converts rt [c.char] v with
  | true => simp [Verdict.bind, hstride, judgeLoop, hleft]
  | false => simp [Verdict.bind]

/-- A return of the encoder on one basic value tells that the value converts, and what was called. -/
theorem appendData_basic {p q : Ptr} (hs : Str st.mem p [c.char])
    (h : appendData rt sd p [v] st = .ok q st') :
    ∃ x, convert rt c v = some x ∧ st'.calls = st.calls ++ [basicCall x] := by
  rw [appendData, appendArgs] at h
  obtain ⟨_, _, hreset, h⟩ := run_bind.mp h
  obtain ⟨st₁, hr, hmem₁, hcalls₁⟩ := silent_reset st
  obtain ⟨_, rfl⟩ := EStateM.Result.ok.inj (hr.symm.trans hreset)
  obtain ⟨p₂, _, hloop, h⟩ := run_bind.mp h
  -- behind the loop nothing is called
  simp only [run_bind, run_cursor, run_panicIf, run_pure] at h
  obtain ⟨_, _, ⟨_, rfl⟩, _, _, ⟨_, rfl⟩, _, rfl⟩ := h
  rw [appendLoop] at hloop
  simp only [run_bind, run_cursor, run_panicIf] at hloop
  obtain ⟨_, _, ⟨_, rfl⟩, _, st₂, ⟨_, rfl⟩, _, _, hinc, p₃, st₄, hrec, p₄, _, hnext, hend⟩ := hloop
  obtain ⟨st₃, hi, hmem₃, hcalls₃⟩ := silent_inc st₂
  obtain ⟨_, rfl⟩ := EStateM.Result.ok.inj (hi.symm.trans hinc)
  obtain ⟨_, _, rfl⟩ := run_next.mp hnext
  rw [appendLoop] at hend
  obtain ⟨_, rfl⟩ := run_pure.mp hend
  -- the type is basic
  rw [appendCompleteType, appendCompleteBody] at hrec
  simp only [run_bind, run_scan, run_cursor, dbusErrctxSet, dbusErrctxExit, run_modify, run_pure] at hrec
  obtain ⟨_, st₅, ⟨_, _, _, hst₅⟩, _, _, rfl, ch, _, ⟨hch, rfl⟩, _, st₆, hbranch, _, _, rfl, _, rfl⟩ := hrec
  have hread : st₅.mem.read p = some c.char := by
    rw [hst₅, hmem₃, hmem₁]
    exact hs.cons.1
  obtain rfl := Option.some.inj (hread.symm.trans hch)
  rw [appendBranch, if_pos (isBasicType_char c)] at hbranch
  obtain ⟨_, _, hbasic, h⟩ := run_bind.mp hbranch
  obtain ⟨_, rfl⟩ := run_pure.mp h
  obtain ⟨x, hx, _, rfl⟩ := (run_appendBasicType (by exact hread)).mp hbasic
  refine ⟨x, hx, ?_⟩
  rw [← hcalls₁, ← hcalls₃, ← hst₅]

/-- What `append_data` raises `message-append` raises. -/
theorem messageAppend_raises {bs : List UInt8} {vs : List Janet} {e : Stop} (hne : vs ≠ []) (hnul : 0 ∉ bs)
    (h : appendData rt sd (st.mem.alloc (chars bs ++ ['\x00'])).1 vs
      { st with mem := (st.mem.alloc (chars bs ++ ['\x00'])).2 } = .error e st') :
    cfunMessageAppend rt sd (.string bs) vs st = .error e st' := by
  have hsome : janetGetcbytes bs = some ⟨bs, hnul⟩ := dif_pos hnul
  rw [cfunMessageAppend]
  simp only [hsome, chars_string]
  refine error_bind.mpr (.inr ⟨(), st, run_panicIf.mpr ⟨fun h => hne (List.length_eq_zero_iff.mp h), rfl⟩, ?_⟩)
  exact error_bind.mpr (.inr ⟨_, _, run_allocate.mpr ⟨rfl, rfl⟩, error_bind.mpr (.inl h)⟩)

/-- `message-append` of one basic value raises, or converts it and appends it. -/
theorem messageAppend_basic (rt : Runtime) (sd : SdBus) (c : Code) (v : Janet) (st : AppendState) :
    (∃ msg st', cfunMessageAppend rt sd (.string [c.char.toUInt8]) [v] st = .error (.panic msg) st') ∨
    ∃ x st', cfunMessageAppend rt sd (.string [c.char.toUInt8]) [v] st = .ok () st' ∧
      convert rt c v = some x ∧ st'.calls = st.calls ++ [basicCall x] := by
  have hchars : chars [c.char.toUInt8] = [c.char] := by cases c <;> rfl
  have hnul : 0 ∉ [c.char.toUInt8] := by cases c <;> decide
  have hstr : Str (st.mem.alloc (chars [c.char.toUInt8] ++ ['\x00'])).2
      (st.mem.alloc (chars [c.char.toUInt8] ++ ['\x00'])).1 [c.char] := by
    rw [hchars]
    exact alloc_str (r := []) (by cases c <;> decide)
  have htotal : Total rt sd _ [v] { st with mem := (st.mem.alloc (chars [c.char.toUInt8] ++ ['\x00'])).2 } :=
    total_of_verdict hstr (judgeData_basic rt c v) sd
  rcases htotal with ⟨q, st', cs, _, hok, _⟩ | ⟨msg, st', _, herr⟩
  · obtain ⟨x, hx, hcalls⟩ := appendData_basic hstr hok
    exact .inr ⟨x, st', run_messageAppend.mpr ⟨by simp, hnul, q, hok⟩, hx, hcalls⟩
  · exact .inl ⟨msg, st', messageAppend_raises (by simp) hnul herr⟩

/-! ### Never silently altered -/

variable (rt) in
/-- `message-append` raises, or it is given a documented way to write an integer and appends that
    integer; then `message-read` returns a value that denotes it, wherever the item comes to stand. -/
def Exact (c : Code) (v : Janet) : Prop :=
  ∀ sd st, (∃ msg st', cfunMessageAppend rt sd (.string [c.char.toUInt8]) [v] st = .error (.panic msg) st') ∨
    ∃ x n st', cfunMessageAppend rt sd (.string [c.char.toUInt8]) [v] st = .ok () st' ∧ Takes c v n ∧
      st'.calls = st.calls ++ [.append x] ∧ x.code = c ∧ intValue x = some n ∧
      ∀ tb dup b rest, ∃ w, cfunMessageRead rt tb dup (.count 1) (cursorAt b [.basic x :: rest]) =
        .ok w (cursorAt b [rest]) ∧ w.toInt = some n

theorem messageRead_basic (rt : Runtime) (tb : Tables) (dup : ℤ → Except String ℤ) (b rest : List Item)
    {x : Basic} (hx : readable dup x = true) :
    cfunMessageRead rt tb dup (.count 1) (cursorAt b [.basic x :: rest]) =
      .ok (basicValue dup x) (cursorAt b [rest]) := by
  have hfuel : Item.size (.basic x) < (cursorAt b [.basic x :: rest]).fuel := by
    have hdef : (cursorAt b [.basic x :: rest]).fuel =
      sizeAll b + sizeAll [.basic x :: rest].flatten + 2 := rfl
    rw [Item.size]
    omega
  rw [cfunMessageRead]
  refine read_bind (s := cursorAt b [.basic x :: rest]) rfl ?_
  refine read_bind (a := [basicValue dup x]) (s := cursorAt b [rest]) ?_ rfl
  have hitem : decode tb dup (.basic x) = basicValue dup x := by rw [decode]
  rw [Int.toNat_one, readUpTo, ← hitem]
  exact read_bind (readCompleteType_item _ (.basic x) (by rwa [validItem]) hfuel rest []) rfl

/-- Integers are not altered if and only if the conversion is not loose. -/
theorem exact_iff (rt : Runtime) (c : Code) (v : Janet) (hc : (range c).isSome = true) :
    Exact rt c v ↔ loose rt c v = false := by
  constructor
  · intro h
    by_contra hloose
    obtain ⟨⟨x, hx⟩, htakes⟩ := loose_convert (Bool.of_not_eq_false hloose)
    have hchars : chars [c.char.toUInt8] = renderAll [.basic c] := by cases c <;> rfl
    have hdenote : denoteFields rt [.basic c] [v] = some [.basic x] := by
      simp [denoteFields, denote, hx]
    obtain ⟨st, hst⟩ : ∃ st : AppendState, st = ⟨Mem.empty, ⟨none, 0, none, 0, 0, 0⟩, []⟩ := ⟨_, rfl⟩
    have hacc : Accepted openBus st.calls (callsAll [.basic x]) := by simp [callsAll, calls, Accepted, openBus]
    obtain ⟨st₁, hok, _⟩ := cfunMessageAppend_returns hchars (by simp) hdenote hacc
    rcases h openBus st with ⟨msg, st', herr⟩ | ⟨_, n, _, _, hn, _⟩
    · exact absurd (herr.symm.trans hok) (by simp)
    · exact htakes n hn
  · intro hv sd st
    rcases messageAppend_basic rt sd c v st with herr | ⟨x, st', hok, hx, hcalls⟩
    · exact .inl herr
    · obtain ⟨n, hn, htakes⟩ := convert_takes hc hv hx
      have hcode := convert_code hx
      have hcall : basicCall x = .append x := by cases x <;> first | rfl | simp [intValue] at hn
      have hnotFd : notFd x = true := by cases x <;> first | rfl | simp [intValue] at hn
      refine .inr ⟨x, n, st', hok, htakes, by rw [hcalls, hcall], hcode, hn, fun tb dup b rest => ?_⟩
      refine ⟨_, messageRead_basic rt tb dup b rest (readable_of_notFd x hnotFd), ?_⟩
      rw [basicValue_notFd hnotFd, ofBasic_toInt x (by rw [hn]; rfl), hn]

/-- A number for an `x`. -/
theorem exact_iff_number : Exact silentRuntime .int64 (.number (.fin 7)) ∧
    loose silentRuntime .int64 (.number (.fin 7)) = false :=
  ⟨(exact_iff silentRuntime .int64 (.number (.fin 7)) rfl).mpr rfl, rfl⟩

/-- A boxed unsigned integer with the highest bit set becomes negative as an `x`. -/
theorem int64_u64_negative : (∃ st', cfunMessageAppend silentRuntime checkingBus (.string [120])
      [.u64 0x8000000000000000] ⟨Mem.empty, ⟨none, 0, none, 0, 0, 0⟩, []⟩ = .ok () st' ∧
      st'.calls = [.append (.int64 0x8000000000000000)]) ∧ Janet.toInt (.u64 0x8000000000000000) = some (2 ^ 63) ∧
    intValue (.int64 0x8000000000000000) = some (-2 ^ 63) ∧ ¬ Exact silentRuntime .int64 (.u64 0x8000000000000000) := by
  have hrun : ∃ st', cfunMessageAppend silentRuntime checkingBus (.string [120])
      [.u64 0x8000000000000000] ⟨Mem.empty, ⟨none, 0, none, 0, 0, 0⟩, []⟩ = .ok () st' ∧
      st'.calls = [.append (.int64 0x8000000000000000)] := ⟨_, rfl, rfl⟩
  refine ⟨hrun, by decide +kernel, by decide +kernel, fun h => ?_⟩
  obtain ⟨st', hok, _⟩ := hrun
  rcases h checkingBus ⟨Mem.empty, ⟨none, 0, none, 0, 0, 0⟩, []⟩ with ⟨_, _, herr⟩ | ⟨_, _, _, _, htakes, _⟩
  · exact absurd (herr.symm.trans hok) (by simp)
  · exact absurd htakes.kind (by simp [acceptsKind])

end append

end JanetSdbus.Message
