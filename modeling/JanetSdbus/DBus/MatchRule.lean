import Mathlib.Data.List.Basic

/-! D-Bus match rules.

    A rule is a list of pairs, `key='value'`, with commas between them. An apostrophe starts and ends
    a quoted section; outside of one, a backslash and an apostrophe stand for an apostrophe. `parseRule`
    reads a rule and `Rule.admits` says which messages satisfy it: a key that is left out admits
    everything. `parseRule_write` reads back what was written with names as values. -/

namespace DBus.MatchRule

/-! ### Names -/

def nameStart (c : Char) : Bool := c.isAlpha || c = '_'

def nameChar (c : Char) : Bool := c.isAlphanum || c = '_'

def busNameStart (c : Char) : Bool := nameStart c || c = '-'

def busNameChar (c : Char) : Bool := nameChar c || c = '-'

/-- The elements between separators are not empty, and each starts with a character that may start
    one. `start`: an element is about to start. -/
def elementsStart (first : Char → Bool) (sep : Char) : (start : Bool) → List Char → Bool
  | start, [] => !start
  | start, c :: cs =>
    if c = sep then !start && elementsStart first sep true cs
    else (!start || first c) && elementsStart first sep false cs

def elementsValid (first rest : Char → Bool) (sep : Char) (s : List Char) : Bool :=
  s.all (fun c => rest c || c = sep) && elementsStart first sep true s

def isMemberName (s : List Char) : Bool :=
  s.length ≤ 255 && s.all nameChar && s.head?.any nameStart

def isInterfaceName (s : List Char) : Bool :=
  s.length ≤ 255 && elementsValid nameStart nameChar '.' s && s.contains '.'

/-- A unique name starts with a colon; its elements may start with digits. -/
def isBusName : List Char → Bool
  | ':' :: s => s.length ≤ 254 && elementsValid busNameChar busNameChar '.' s && s.contains '.'
  | s => s.length ≤ 255 && elementsValid busNameStart busNameChar '.' s && s.contains '.'

def isObjectPath : List Char → Bool
  | ['/'] => true
  | '/' :: s => elementsValid nameChar nameChar '/' s
  | _ => false

abbrev MemberName := { s : List Char // isMemberName s = true }

abbrev InterfaceName := { s : List Char // isInterfaceName s = true }

abbrev BusName := { s : List Char // isBusName s = true }

abbrev ObjectPath := { s : List Char // isObjectPath s = true }

/-! ### Messages -/

inductive MessageType where
  | methodCall | methodReturn | error | signal
  deriving DecidableEq

def MessageType.text : MessageType → List Char
  | .methodCall => "method_call".toList
  | .methodReturn => "method_return".toList
  | .error => "error".toList
  | .signal => "signal".toList

def MessageType.all : List MessageType := [.methodCall, .methodReturn, .error, .signal]

theorem MessageType.text_inj {t u : MessageType} (h : t.text = u.text) : t = u := by
  revert h
  cases t <;> cases u <;> decide

/-- An argument, as far as rules look at it. -/
inductive Arg where
  | string (s : List Char)
  | objectPath (s : List Char)
  | other
  deriving DecidableEq

/-- What rules look at. `owned` are the well-known names of the connection that sent the message. -/
structure Envelope where
  type : MessageType
  sender : Option (List Char)
  owned : List (List Char)
  destination : Option (List Char)
  path : Option (List Char)
  interface : Option (List Char)
  member : Option (List Char)
  args : List Arg

def Envelope.sentBy (m : Envelope) (name : List Char) : Prop := m.sender = some name ∨ name ∈ m.owned

instance (m : Envelope) (name : List Char) : Decidable (m.sentBy name) :=
  inferInstanceAs (Decidable (_ ∨ _))

/-! ### Rules -/

inductive Key where
  | type | sender | interface | member | path | pathNamespace | destination
  | arg (n : Fin 64) | argPath (n : Fin 64) | arg0namespace | eavesdrop
  deriving DecidableEq

def Key.text : Key → List Char
  | .type => "type".toList
  | .sender => "sender".toList
  | .interface => "interface".toList
  | .member => "member".toList
  | .path => "path".toList
  | .pathNamespace => "path_namespace".toList
  | .destination => "destination".toList
  | .arg n => "arg".toList ++ Nat.toDigits 10 n
  | .argPath n => "arg".toList ++ Nat.toDigits 10 n ++ "path".toList
  | .arg0namespace => "arg0namespace".toList
  | .eavesdrop => "eavesdrop".toList

def Key.all : List Key :=
  [.type, .sender, .interface, .member, .path, .pathNamespace, .destination, .arg0namespace, .eavesdrop] ++
    (List.finRange 64).map .arg ++ (List.finRange 64).map .argPath

def Key.ofText (s : List Char) : Option Key := Key.all.find? fun k => k.text = s

/-- Which values a key may have. -/
def Key.accepts : Key → List Char → Bool
  | .type, v => MessageType.all.any fun t => t.text = v
  | .sender, v => isBusName v
  | .interface, v => isInterfaceName v
  | .member, v => isMemberName v
  | .path, v => isObjectPath v
  | .pathNamespace, v => isObjectPath v
  | .destination, v => isBusName v
  | .arg _, _ => true
  | .argPath _, _ => true
  | .arg0namespace, v => elementsValid busNameStart busNameChar '.' v
  | .eavesdrop, v => v = "true".toList || v = "false".toList

/-- The value is compared with an argument and may be any text. -/
def Key.isArg : Key → Bool
  | .arg _ | .argPath _ => true
  | _ => false

/-- `s` is `v`, or `v` followed by more elements. -/
def under (sep : Char) (v s : List Char) : Bool := s = v || v = [sep] || (v ++ [sep]).isPrefixOf s

/-- One of the two is the other, or ends with a slash and is a prefix of the other. -/
def pathLike (v s : List Char) : Bool :=
  s = v || (v.getLast? = some '/' && v.isPrefixOf s) || (s.getLast? = some '/' && s.isPrefixOf v)

def Key.admits (m : Envelope) (v : List Char) : Key → Bool
  | .type => m.type.text = v
  | .sender => m.sentBy v
  | .interface => m.interface = some v
  | .member => m.member = some v
  | .path => m.path = some v
  | .pathNamespace => m.path.any (under '/' v)
  | .destination => m.destination = some v
  | .arg n => m.args[n.val]? = some (.string v)
  | .argPath n =>
    match m.args[n.val]? with
    | some (.string s) | some (.objectPath s) => pathLike v s
    | _ => false
  | .arg0namespace =>
    match m.args.head? with
    | some (.string s) => s = v || (v ++ ['.']).isPrefixOf s
    | _ => false
  | .eavesdrop => true

abbrev Rule := List (Key × List Char)

def Rule.admits (r : Rule) (m : Envelope) : Bool := r.all fun p => p.1.admits m p.2

/-- No key twice, and every value is one that its key may have. -/
def Rule.valid (r : Rule) : Bool := decide (r.map Prod.fst).Nodup && r.all fun p => p.1.accepts p.2

/-! ### Reading -/

def apostrophe : Char := Char.ofNat 39

def backslash : Char := Char.ofNat 92

/-- The value up to the comma that ends it, and what comes after the comma. -/
def readValue : (quoted : Bool) → List Char → Option (List Char × Option (List Char))
  | quoted, [] => if quoted then none else some ([], none)
  | true, c :: cs =>
    if c = apostrophe then readValue false cs else (readValue true cs).map (Prod.map (c :: ·) id)
  | false, [c] =>
    if c = ',' then some ([], some []) else if c = apostrophe then none else some ([c], none)
  | false, c :: d :: cs =>
    if c = ',' then some ([], some (d :: cs))
    else if c = apostrophe then readValue true (d :: cs)
    else if c = backslash ∧ d = apostrophe then (readValue false cs).map (Prod.map (apostrophe :: ·) id)
    else (readValue false (d :: cs)).map (Prod.map (c :: ·) id)

/-- At most `n` pairs. -/
def readPairs : ℕ → List Char → Option Rule
  | 0, _ => none
  | n + 1, cs => do
    let key ← Key.ofText (cs.takeWhile (· ≠ '='))
    let rest ← (cs.dropWhile (· ≠ '=')).tail?
    let (value, more) ← readValue false rest
    match more with
    | none => pure [(key, value)]
    | some cs => (readPairs n cs).map ((key, value) :: ·)

/-- The empty rule is a rule. -/
def parseRule (cs : List Char) : Option Rule :=
  if cs = [] then some [] else (readPairs cs.length cs).filter Rule.valid

/-- The message satisfies the rule that the text stands for. -/
def Satisfies (cs : List Char) (m : Envelope) : Prop := ∃ r, parseRule cs = some r ∧ r.admits m = true

/-! ### Writing -/

def writePair (p : Key × List Char) : List Char := p.1.text ++ '=' :: apostrophe :: (p.2 ++ [apostrophe])

def writeRule (r : Rule) : List Char := [','].intercalate (r.map writePair)

theorem Key.ofText_text (k : Key) : Key.ofText k.text = some k := by
  cases k with
  | arg n => revert n; decide +kernel
  | argPath n => revert n; decide +kernel
  | _ => decide +kernel

theorem Key.text_plain (k : Key) : '=' ∉ k.text := by
  cases k with
  | arg n => revert n; decide +kernel
  | argPath n => revert n; decide +kernel
  | _ => decide +kernel

theorem takeWhile_text (k : Key) (cs : List Char) :
    (k.text ++ '=' :: cs).takeWhile (· ≠ '=') = k.text ∧ (k.text ++ '=' :: cs).dropWhile (· ≠ '=') = '=' :: cs := by
  have hall : ∀ c ∈ k.text, decide (c ≠ '=') = true := by
    intro c hc
    rw [decide_eq_true_eq]
    rintro rfl
    exact k.text_plain hc
  rw [List.takeWhile_append_of_pos hall, List.dropWhile_append_of_pos hall]
  simp

/-- A quoted section without apostrophes is read to its end. -/
theorem readValue_quoted (rest : List Char) : ∀ {v : List Char}, apostrophe ∉ v →
    readValue true (v ++ apostrophe :: rest) = (readValue false rest).map (Prod.map (v ++ ·) id)
  | [], _ => by
    rw [List.nil_append, readValue, if_pos rfl]
    cases readValue false rest <;> rfl
  | c :: v, h => by
    obtain ⟨hc, hv⟩ := not_or.mp (List.mem_cons.not.mp h)
    rw [List.cons_append, readValue, if_neg (Ne.symm hc), readValue_quoted rest hv]
    cases readValue false rest <;> rfl

theorem readValue_write {v : List Char} (h : apostrophe ∉ v) (rest : List Char) :
    readValue false (apostrophe :: (v ++ apostrophe :: rest)) =
      (readValue false rest).map (Prod.map (v ++ ·) id) := by
  rw [← readValue_quoted rest h]
  cases v with
  | nil => rfl
  | cons c v => rfl

/-- The values are free of apostrophes. -/
def Plain (r : Rule) : Prop := ∀ p ∈ r, apostrophe ∉ p.2

theorem readPairs_write : ∀ {r : Rule} {n : ℕ}, r ≠ [] → Plain r → r.length ≤ n →
    readPairs n (writeRule r) = some r
  | [], _, h, _, _ => absurd rfl h
  | (k, v) :: r, 0, _, _, hn => absurd hn (by simp)
  | (k, v) :: r, n + 1, _, hplain, hn => by
    have hv : apostrophe ∉ v := hplain (k, v) List.mem_cons_self
    cases r with
    | nil =>
      have hwrite : writeRule [(k, v)] = k.text ++ '=' :: apostrophe :: (v ++ apostrophe :: []) := by
        rw [writeRule, List.map_singleton, List.intercalate_singleton, writePair]
      obtain ⟨htake, hdrop⟩ := takeWhile_text k (apostrophe :: (v ++ apostrophe :: []))
      rw [hwrite, readPairs, htake, hdrop, Key.ofText_text]
      simp only [Option.bind_eq_bind, Option.bind_some, List.tail?_cons, readValue_write hv]
      simp [readValue]
    | cons p r =>
      have hwrite : writeRule ((k, v) :: p :: r) =
          k.text ++ '=' :: apostrophe :: (v ++ apostrophe :: ',' :: writeRule (p :: r)) := by
        rw [writeRule, List.map_cons, List.map_cons, List.intercalate_cons_cons, writePair, ← List.map_cons, ← writeRule]
        simp
      obtain ⟨htake, hdrop⟩ := takeWhile_text k (apostrophe :: (v ++ apostrophe :: ',' :: writeRule (p :: r)))
      have hrest : readPairs n (writeRule (p :: r)) = some (p :: r) :=
        readPairs_write (by simp) (fun q hq => hplain q (List.mem_cons_of_mem _ hq)) (Nat.le_of_succ_le_succ hn)
      have hcomma : readValue false (',' :: writeRule (p :: r)) = some ([], some (writeRule (p :: r))) := by
        cases writeRule (p :: r) with
        | nil => rfl
        | cons c cs => rfl
      rw [hwrite, readPairs, htake, hdrop, Key.ofText_text]
      simp only [Option.bind_eq_bind, Option.bind_some, List.tail?_cons, readValue_write hv, hcomma]
      simp [hrest]

theorem length_le_write : ∀ r : Rule, r.length ≤ (writeRule r).length
  | [] => Nat.zero_le _
  | [p] => by
    simp only [writeRule, List.map_singleton, List.intercalate_singleton, writePair, List.length_append,
      List.length_cons]
    omega
  | p :: q :: r => by
    have ih := length_le_write (q :: r)
    rw [writeRule, List.map_cons] at ih ⊢
    rw [List.map_cons, List.intercalate_cons_cons]
    simp only [List.length_cons, List.length_append] at ih ⊢
    omega

/-- A valid rule without apostrophes is read back as it was written. -/
theorem parseRule_write {r : Rule} (hplain : Plain r) (hvalid : r.valid = true) : parseRule (writeRule r) = some r := by
  cases r with
  | nil => rfl
  | cons p r =>
    have hlen := length_le_write (p :: r)
    have hne : writeRule (p :: r) ≠ [] := by
      intro h
      rw [h] at hlen
      exact absurd hlen (by simp)
    rw [parseRule, if_neg hne, readPairs_write (List.cons_ne_nil p r) hplain hlen]
    simp [hvalid]

theorem satisfies_write {r : Rule} (hplain : Plain r) (hvalid : r.valid = true) (m : Envelope) :
    Satisfies (writeRule r) m ↔ r.admits m = true := by
  rw [Satisfies, parseRule_write hplain hvalid]
  simp

/-! ### Names are plain -/

theorem elementsValid_plain {first rest : Char → Bool} {sep : Char} {s : List Char}
    (h : elementsValid first rest sep s = true) (hrest : rest apostrophe = false) (hsep : apostrophe ≠ sep) :
    apostrophe ∉ s := by
  intro hmem
  rw [elementsValid, Bool.and_eq_true, List.all_eq_true] at h
  have hc := h.1 apostrophe hmem
  rw [hrest, decide_eq_false hsep] at hc
  exact absurd hc (by decide)

theorem isMemberName_plain {s : List Char} (h : isMemberName s = true) : apostrophe ∉ s := by
  intro hmem
  simp only [isMemberName, Bool.and_eq_true, List.all_eq_true] at h
  exact absurd (h.1.2 apostrophe hmem) (by decide)

theorem isInterfaceName_plain {s : List Char} (h : isInterfaceName s = true) : apostrophe ∉ s := by
  simp only [isInterfaceName, Bool.and_eq_true] at h
  exact elementsValid_plain h.1.2 (by decide) (by decide)

theorem isBusName_plain {s : List Char} (h : isBusName s = true) : apostrophe ∉ s := by
  rw [isBusName.eq_def] at h
  split at h
  · simp only [Bool.and_eq_true] at h
    have := elementsValid_plain h.1.2 (by decide) (by decide)
    simpa using ⟨by decide, this⟩
  · simp only [Bool.and_eq_true] at h
    exact elementsValid_plain h.1.2 (by decide) (by decide)

theorem isObjectPath_plain {s : List Char} (h : isObjectPath s = true) : apostrophe ∉ s := by
  rw [isObjectPath.eq_def] at h
  split at h
  · decide
  · have := elementsValid_plain h (by decide) (by decide)
    simpa using ⟨by decide, this⟩
  · exact absurd h (by decide)

theorem MessageType.text_plain (t : MessageType) : apostrophe ∉ t.text := by
  cases t <;> decide

theorem Key.accepts_plain {k : Key} {v : List Char} (h : k.accepts v = true) (hk : k.isArg = false) :
    apostrophe ∉ v := by
  cases k with
  | type =>
    obtain ⟨t, _, ht⟩ := List.any_eq_true.mp h
    rw [← of_decide_eq_true ht]
    exact t.text_plain
  | sender => exact isBusName_plain h
  | interface => exact isInterfaceName_plain h
  | member => exact isMemberName_plain h
  | path => exact isObjectPath_plain h
  | pathNamespace => exact isObjectPath_plain h
  | destination => exact isBusName_plain h
  | arg n => exact absurd hk (by simp [Key.isArg])
  | argPath n => exact absurd hk (by simp [Key.isArg])
  | arg0namespace => exact elementsValid_plain h (by decide) (by decide)
  | eavesdrop =>
    rw [Key.accepts, Bool.or_eq_true] at h
    rcases h with h | h <;> rw [of_decide_eq_true h] <;> decide

end DBus.MatchRule
