import JanetSdbus.Introspect.Markup

/-! What the grammar reads.

    The grammar reads the texts of documents whose elements stand where they belong, and no others, and
    `parse-xml` returns, or raises, what `build` makes of the root (`parse_document`, `parse_ok`). A
    rule looks no further than the name of its tag before it fails (`rule_fail`), so that of the rules
    for the children at most one reads on, and none reads a closing tag. -/

namespace JanetSdbus.Introspect
open Message Schemes
open Export (bytesOf)

/-! ### Rules -/

/-- No name of a tag begins with another, and the same goes for the names of a tag's attributes. -/
theorem name_free : ∀ t t' : Tag, bytesOf t.name <+: bytesOf t'.name → t = t' := by
  intro t t'
  cases t <;> cases t' <;> decide

theorem attrs_free (t : Tag) : ∀ k ∈ t.attrs, ∀ k' ∈ t.attrs, bytesOf k <+: bytesOf k' → bytesOf k = bytesOf k' := by
  cases t <;> decide

def takes (p : Rule) : Prop := ∀ {s cs r}, p.run s = .ok cs r → r.length < s.length

theorem takes_text {w : String} {ps : List Rule} (h : bytesOf w ≠ []) : takes (Peg.sequence (text w :: ps)) := by
  intro s cs r hrun
  obtain ⟨_, m, _, hw, hps, _⟩ := Peg.sequence_cons.mp hrun
  obtain ⟨_, rfl⟩ := Peg.literal_ok.mp hw
  have hlen := Peg.Pattern.length_le hps
  have hpos := List.length_pos_iff.mpr h
  rw [List.length_append]
  omega

/-- The children of an element stand behind its tag. -/
theorem tag_below {n : ℕ} {name : String} {ps qs : List Rule} {attrs : List String}
    (h : List.Forall₂ (Peg.Below n) ps qs) : Peg.Below (n + 1) (tag name ps attrs) (tag name qs attrs) := by
  refine Peg.below_replace (Peg.below_choice (.cons (.refl _ _) (.cons ?_ .nil))) _
  refine Peg.below_behind (takes_text (by decide)) (Peg.below_sequence (.cons ?_ (.cons (.refl _ _) .nil)))
  exact Peg.below_replace (Peg.below_any (Peg.below_choice h)) _

theorem node_guarded : Peg.Guarded fun node => tag "node" [node, interface] ["name"] :=
  fun _ _ _ h => tag_below (.cons h (.cons (.refl _ _) .nil))

/-- Each rule is the one that `tag` makes of what belongs to it. -/
theorem rule_run (t : Tag) (s : List UInt8) : t.rule.run s = (tag t.name (t.children.map Tag.rule) t.attrs).run s := by
  cases t with
  | node => exact Peg.fix_run node_guarded s
  | _ => rfl

/-! ### Spaces and attributes -/

/-- The text does not begin with a space. -/
def Tight (r : List UInt8) : Prop := ∀ c, r.head? = some c → isSpace c = false

theorem tight_text {w : String} {r : List UInt8} (h : (bytesOf w).head?.any (fun c => !isSpace c) = true) :
    Tight (bytesOf w ++ r) := by
  intro c hc
  cases hw : bytesOf w with
  | nil => rw [hw] at h; exact absurd h (by decide)
  | cons x xs =>
    rw [hw] at h hc
    obtain rfl : x = c := Option.some.inj hc
    simpa using h

theorem any_s_ok {t r : List UInt8} {cs : List Janet} :
    (Peg.any s).run t = .ok cs r ↔ cs = [] ∧ Tight r ∧ ∃ w : Space, t = w.1 ++ r := by
  refine (Peg.any_ofClass (Peg.ofClass_satisfy isSpace)).trans ⟨?_, ?_⟩
  · rintro ⟨hcs, w, ht, hw, hr⟩
    exact ⟨hcs, hr, ⟨w, hw⟩, ht⟩
  · rintro ⟨hcs, hr, w, ht⟩
    exact ⟨hcs, w.1, ht, w.2, hr⟩

theorem some_s_ok {t r : List UInt8} {cs : List Janet} :
    (Peg.some s).run t = .ok cs r ↔ cs = [] ∧ Tight r ∧ ∃ w : Space, w.1 ≠ [] ∧ t = w.1 ++ r := by
  refine (Peg.some_ofClass (Peg.ofClass_satisfy isSpace)).trans ⟨?_, ?_⟩
  · rintro ⟨hcs, w, hne, ht, hw, hr⟩
    exact ⟨hcs, hr, ⟨w, hw⟩, hne, ht⟩
  · rintro ⟨hcs, hr, w, hne, ht⟩
    exact ⟨hcs, w.1, hne, ht, w.2, hr⟩

theorem some_s_fail {t : List UInt8} (h : Tight t) : (Peg.some s).run t = .fail := by
  refine Peg.sequence_fail (Peg.satisfy_fail fun c r ht => h c ?_)
  rw [ht]
  rfl

def Attribute.captures (a : Attribute) : List Janet := [kw a.key, .string a.value]

/-- A key, a value between quotes. -/
theorem attr_ok {keys : List String} {t r : List UInt8} {cs : List Janet} (hne : keys ≠ [])
    (hfree : ∀ k ∈ keys, ∀ k' ∈ keys, bytesOf k <+: bytesOf k' → bytesOf k = bytesOf k') :
    (attr keys).run t = .ok cs r ↔ ∃ k ∈ keys, ∃ v, quote ∉ v ∧ cs = [kw k, .string v] ∧
      t = bytesOf k ++ (bytesOf "=" ++ (bytesOf "\"" ++ (v ++ (bytesOf "\"" ++ r)))) := by
  have hempty : keys.isEmpty = false := by
    cases keys with
    | nil => exact absurd rfl hne
    | cons k keys => rfl
  have hvalue : Peg.OfClass (Peg.ifNot (Introspect.text "\"") (Peg.satisfy fun _ => true)) (fun x => x ≠ quote) :=
    Peg.ofClass_ifNot quote
  rw [attr, hempty, if_neg Bool.false_ne_true]
  constructor
  · intro h
    obtain ⟨_, _, _, hkey, h₁, rfl⟩ := Peg.sequence_cons.mp h
    obtain ⟨_, _, _, heq, h₂, rfl⟩ := Peg.sequence_cons.mp h₁
    obtain ⟨_, _, _, hopen, h₃, rfl⟩ := Peg.sequence_cons.mp h₂
    obtain ⟨_, _, _, hval, hclose, rfl⟩ := Peg.sequence_cons.mp h₃
    obtain ⟨_, _, hcap, hk, rfl⟩ := Peg.replace_ok.mp hkey
    obtain ⟨w, _, rfl, hlit, rfl⟩ := Peg.capture_ok.mp hcap
    obtain ⟨rfl, k, hmem, ht⟩ := (Peg.choice_literals hfree).mp hlit
    obtain rfl := List.append_cancel_right ht
    obtain rfl := Except.ok.inj hk
    obtain ⟨rfl, rfl⟩ := Peg.literal_ok.mp heq
    obtain ⟨rfl, rfl⟩ := Peg.literal_ok.mp hopen
    obtain ⟨v, _, rfl, hany, rfl⟩ := Peg.capture_ok.mp hval
    obtain ⟨rfl, v', hv, hclass, _⟩ := (Peg.any_ofClass hvalue).mp hany
    obtain rfl := List.append_cancel_right hv
    obtain ⟨rfl, rfl⟩ := Peg.literal_ok.mp (Peg.sequence_one.mp hclose)
    exact ⟨k, hmem, v, fun hq => absurd (hclass quote hq) (by decide), rfl, rfl⟩
  · rintro ⟨k, hmem, v, hv, rfl, rfl⟩
    have hval : (Peg.any (Peg.ifNot (Introspect.text "\"") (Peg.satisfy fun _ => true))).run
        (v ++ (bytesOf "\"" ++ r)) = .ok [] (bytesOf "\"" ++ r) := by
      refine (Peg.any_ofClass hvalue).mpr ⟨rfl, v, rfl, fun c hc => ?_, fun c hc => ?_⟩
      · exact decide_eq_true fun h => hv (h ▸ hc)
      · obtain rfl : quote = c := Option.some.inj hc
        decide
    show (Peg.sequence _).run _ = .ok ([kw k] ++ ([] ++ ([] ++ ([.string v] ++ [])))) r
    refine Peg.sequence_run (Peg.replace_ok.mpr ⟨_, _, Peg.capture_ok.mpr ⟨_, _, rfl,
      (Peg.choice_literals hfree).mpr ⟨rfl, k, hmem, rfl⟩, rfl⟩, rfl, rfl⟩) ?_
    refine Peg.sequence_run (Peg.literal_ok.mpr ⟨rfl, rfl⟩) ?_
    refine Peg.sequence_run (Peg.literal_ok.mpr ⟨rfl, rfl⟩) ?_
    refine Peg.sequence_run (Peg.capture_ok.mpr ⟨v, [], rfl, hval, rfl⟩) ?_
    exact Peg.sequence_one.mpr (Peg.literal_ok.mpr ⟨rfl, rfl⟩)

theorem attrs_ne (t : Tag) : t.attrs ≠ [] := by cases t <;> decide

theorem attrs_tight (t : Tag) : ∀ k ∈ t.attrs, (bytesOf k).head?.any (fun c => !isSpace c) = true := by
  cases t <;> decide

/-- An attribute, behind some space. -/
def spaced (t : Tag) : Rule := Peg.sequence [Peg.some s, attr t.attrs]

theorem spaced_sound {t : Tag} {u r : List UInt8} {cs : List Janet} (h : (spaced t).run u = .ok cs r) :
    ∃ a : Attribute, a.key ∈ t.attrs ∧ u = a.text ++ r ∧ cs = a.captures := by
  obtain ⟨_, m, _, hs, ha, rfl⟩ := Peg.sequence_cons.mp h
  obtain ⟨rfl, _, w, hne, rfl⟩ := some_s_ok.mp hs
  obtain ⟨k, hk, v, hv, rfl, rfl⟩ := (attr_ok (attrs_ne t) (attrs_free t)).mp (Peg.sequence_one.mp ha)
  refine ⟨⟨w, k, v, hne, hv⟩, hk, ?_, rfl⟩
  simp only [Attribute.text, List.append_assoc]

theorem spaced_run {t : Tag} {a : Attribute} (h : a.key ∈ t.attrs) (r : List UInt8) :
    (spaced t).run (a.text ++ r) = .ok a.captures r := by
  have hkey := (attr_ok (r := r) (attrs_ne t) (attrs_free t)).mpr ⟨a.key, h, a.value, a.plain, rfl, rfl⟩
  simp only [Attribute.text, List.append_assoc]
  exact Peg.sequence_run (some_s_ok.mpr ⟨rfl, tight_text (attrs_tight t _ h), a.before, a.spaced, rfl⟩)
    (Peg.sequence_one.mpr hkey)

theorem row_sound {t : Tag} {u r : List UInt8} {cs : List Janet} (h : (Peg.any (spaced t)).run u = .ok cs r) :
    ∃ as, AttributesBelong t as ∧ u = as.flatMap Attribute.text ++ r ∧ cs = as.flatMap Attribute.captures := by
  induction Peg.any_ok.mp h with
  | stop _ => exact ⟨[], fun _ ha => absurd ha (by simp), rfl, rfl⟩
  | step hrun _ hrest ih =>
    obtain ⟨a, ha, rfl, rfl⟩ := spaced_sound hrun
    obtain ⟨as, has, rfl, rfl⟩ := ih (Peg.any_ok.mpr hrest)
    refine ⟨a :: as, ?_, by rw [List.flatMap_cons, List.append_assoc], List.flatMap_cons.symm⟩
    rintro x (_ | ⟨_, hx⟩)
    · exact ha
    · exact has x hx

theorem row_run {t : Tag} {as : List Attribute} {r : List UInt8} (h : AttributesBelong t as) (hr : Tight r) :
    (Peg.any (spaced t)).run (as.flatMap Attribute.text ++ r) = .ok (as.flatMap Attribute.captures) r := by
  rw [Peg.any_ok]
  induction as with
  | nil => exact .stop (.inl (Peg.sequence_fail (some_s_fail hr)))
  | cons a as ih =>
    rw [List.flatMap_cons, List.append_assoc]
    refine .step (spaced_run (h a List.mem_cons_self) _) ?_ (ih fun x hx => h x (List.mem_cons_of_mem _ hx))
    have hpos := List.length_pos_iff.mpr a.spaced
    simp only [Attribute.text, List.length_append]
    omega

theorem pairUp_captures (as : List Attribute) :
    pairUp (as.flatMap Attribute.captures) = some (as.map Attribute.entry) := by
  induction as with
  | nil => rfl
  | cons a as ih =>
    show (pairUp (as.flatMap Attribute.captures)).map _ = _
    rw [ih]
    rfl

theorem struct_captures (as : List Attribute) :
    attributeStruct [.array (as.flatMap Attribute.captures)] = .ok (literal (as.map Attribute.entry)) := by
  show struct (as.flatMap Attribute.captures) = _
  rw [struct, pairUp_captures]

theorem attributes_sound {t : Tag} {u r : List UInt8} {cs : List Janet} (h : (attributes t.attrs).run u = .ok cs r) :
    ∃ as, AttributesBelong t as ∧ u = as.flatMap Attribute.text ++ r ∧ cs = [literal (as.map Attribute.entry)] := by
  obtain ⟨_, v, hgroup, hv, rfl⟩ := Peg.replace_ok.mp h
  obtain ⟨_, hrow, rfl⟩ := Peg.group_ok.mp hgroup
  obtain ⟨as, has, rfl, rfl⟩ := row_sound hrow
  rw [struct_captures] at hv
  exact ⟨as, has, rfl, by rw [Except.ok.inj hv]⟩

theorem attributes_run {t : Tag} {as : List Attribute} {r : List UInt8} (h : AttributesBelong t as) (hr : Tight r) :
    (attributes t.attrs).run (as.flatMap Attribute.text ++ r) = .ok [literal (as.map Attribute.entry)] r :=
  Peg.replace_ok.mpr ⟨_, _, Peg.group_ok.mpr ⟨_, row_run h hr, rfl⟩, struct_captures as, rfl⟩

/-! ### Tags -/

/-- `empty-tag` and `open-tag` differ in how they end. -/
def tagEnding (t : Tag) (e : String) : Rule :=
  Peg.sequence [text "<", Peg.capture (text t.name) .string, attributes t.attrs, text e, Peg.any s]

theorem ending_sound {t : Tag} {e : String} {u r : List UInt8} {cs : List Janet}
    (h : (tagEnding t e).run u = .ok cs r) :
    ∃ as w, AttributesBelong t as ∧ Tight r ∧ u = tagText t as e w ++ r ∧
      cs = [str t.name, literal (as.map Attribute.entry)] := by
  obtain ⟨_, _, _, hlt, h₁, rfl⟩ := Peg.sequence_cons.mp h
  obtain ⟨_, _, _, hname, h₂, rfl⟩ := Peg.sequence_cons.mp h₁
  obtain ⟨_, _, _, has, h₃, rfl⟩ := Peg.sequence_cons.mp h₂
  obtain ⟨_, _, _, he, hs, rfl⟩ := Peg.sequence_cons.mp h₃
  obtain ⟨rfl, rfl⟩ := Peg.literal_ok.mp hlt
  obtain ⟨w, _, rfl, hlit, rfl⟩ := Peg.capture_ok.mp hname
  obtain ⟨rfl, hw⟩ := Peg.literal_ok.mp hlit
  obtain rfl := List.append_cancel_right hw
  obtain ⟨as, hbelong, rfl, rfl⟩ := attributes_sound has
  obtain ⟨rfl, rfl⟩ := Peg.literal_ok.mp he
  obtain ⟨rfl, hr, w, rfl⟩ := any_s_ok.mp (Peg.sequence_one.mp hs)
  exact ⟨as, w, hbelong, hr, by simp only [tagText, List.append_assoc], rfl⟩

theorem ending_run {t : Tag} {e : String} {as : List Attribute} {w : Space} {r : List UInt8}
    (h : AttributesBelong t as) (he : (bytesOf e).head?.any (fun c => !isSpace c) = true) (hr : Tight r) :
    (tagEnding t e).run (tagText t as e w ++ r) = .ok [str t.name, literal (as.map Attribute.entry)] r := by
  simp only [tagText, List.append_assoc]
  refine Peg.sequence_run (Peg.literal_ok.mpr ⟨rfl, rfl⟩) ?_
  refine Peg.sequence_run (Peg.capture_ok.mpr ⟨_, [], rfl, Peg.literal_ok.mpr ⟨rfl, rfl⟩, rfl⟩) ?_
  refine Peg.sequence_run (attributes_run h (tight_text he)) ?_
  refine Peg.sequence_run (Peg.literal_ok.mpr ⟨rfl, rfl⟩) ?_
  exact Peg.sequence_one.mpr (any_s_ok.mpr ⟨rfl, hr, w, rfl⟩)

/-- A tag that ends otherwise. -/
theorem ending_fail {t : Tag} {e e' : String} {as : List Attribute} {w : Space} {r : List UInt8}
    (h : AttributesBelong t as) (he : (bytesOf e).head?.any (fun c => !isSpace c) = true)
    (hne : ∀ u, ¬ bytesOf e' <+: bytesOf e ++ u) : (tagEnding t e').run (tagText t as e w ++ r) = .fail := by
  simp only [tagText, List.append_assoc]
  refine Peg.sequence_fail_tail (Peg.literal_ok.mpr ⟨rfl, rfl⟩) ?_
  refine Peg.sequence_fail_tail (Peg.capture_ok.mpr ⟨_, [], rfl, Peg.literal_ok.mpr ⟨rfl, rfl⟩, rfl⟩) ?_
  refine Peg.sequence_fail_tail (attributes_run h (tight_text he)) ?_
  exact Peg.sequence_fail (Peg.literal_fail (hne _))

theorem close_ok {t : Tag} {u r : List UInt8} {cs : List Janet} :
    (closeTag t.name).run u = .ok cs r ↔ cs = [] ∧ Tight r ∧ ∃ w, u = closeText t w ++ r := by
  constructor
  · intro h
    obtain ⟨_, _, _, hlt, h₁, rfl⟩ := Peg.sequence_cons.mp h
    obtain ⟨_, _, _, hname, h₂, rfl⟩ := Peg.sequence_cons.mp h₁
    obtain ⟨_, _, _, hgt, hs, rfl⟩ := Peg.sequence_cons.mp h₂
    obtain ⟨rfl, rfl⟩ := Peg.literal_ok.mp hlt
    obtain ⟨rfl, rfl⟩ := Peg.literal_ok.mp hname
    obtain ⟨rfl, rfl⟩ := Peg.literal_ok.mp hgt
    obtain ⟨rfl, hr, w, rfl⟩ := any_s_ok.mp (Peg.sequence_one.mp hs)
    exact ⟨rfl, hr, w, by simp only [closeText, List.append_assoc]⟩
  · rintro ⟨rfl, hr, w, rfl⟩
    simp only [closeText, List.append_assoc]
    refine Peg.sequence_run (Peg.literal_ok.mpr ⟨rfl, rfl⟩) ?_
    refine Peg.sequence_run (Peg.literal_ok.mpr ⟨rfl, rfl⟩) ?_
    refine Peg.sequence_run (Peg.literal_ok.mpr ⟨rfl, rfl⟩) ?_
    exact Peg.sequence_one.mpr (any_s_ok.mpr ⟨rfl, hr, w, rfl⟩)

theorem ending_fail_name {t : Tag} {e : String} {u : List UInt8} (h : ¬ bytesOf "<" ++ bytesOf t.name <+: u) :
    (tagEnding t e).run u = .fail := by
  by_cases hlt : bytesOf "<" <+: u
  · obtain ⟨m, rfl⟩ := hlt
    refine Peg.sequence_fail_tail (Peg.literal_ok.mpr ⟨rfl, rfl⟩) ?_
    refine Peg.sequence_fail (Peg.capture_fail (Peg.literal_fail fun hname => h ?_))
    exact (List.prefix_append_right_inj _).mpr hname
  · exact Peg.sequence_fail (Peg.literal_fail hlt)

/-- A rule reads nothing that does not begin with its tag. -/
theorem rule_fail {t : Tag} {u : List UInt8} (h : ¬ bytesOf "<" ++ bytesOf t.name <+: u) : t.rule.run u = .fail := by
  rw [rule_run]
  refine Peg.replace_fail (Peg.choice_fail ?_)
  rintro p (_ | ⟨_, _ | ⟨_, _ | _⟩⟩)
  · exact ending_fail_name h
  · exact Peg.sequence_fail (ending_fail_name h)

/-! ### Reading -/

/-- The children of an element. -/
def row (t : Tag) : Rule := Peg.any (Peg.choice (t.children.map Tag.rule))

/-- Of texts shorter than `n`, the rules read only elements that belong. -/
def ReadBelow (n : ℕ) : Prop :=
  ∀ {t : Tag} {u r : List UInt8} {cs : List Janet}, u.length < n → t.rule.run u = .ok cs r →
    ∃ (m : Markup) (v : Janet), m.tag = t ∧ m.Belongs ∧ u = m.text ++ r ∧ m.build = .ok v ∧ cs = [v]

theorem children_sound {n : ℕ} (ih : ReadBelow n) {t : Tag} {u r : List UInt8} {vs : List Janet}
    (hu : u.length < n) (h : (row t).run u = .ok vs r) :
    ∃ ms, BelongIn t ms ∧ u = textAll ms ++ r ∧ buildAll ms = .ok vs := by
  induction Peg.any_ok.mp h with
  | stop _ => exact ⟨[], trivial, rfl, rfl⟩
  | step hrun hlt hrest ihrest =>
    obtain ⟨p, hp, hrun⟩ := Peg.choice_mem hrun
    obtain ⟨t', ht', rfl⟩ := List.mem_map.mp hp
    obtain ⟨m, v, rfl, hm, rfl, hv, rfl⟩ := ih hu hrun
    obtain ⟨ms, hms, rfl, hvs⟩ := ihrest (Nat.lt_trans hlt hu) (Peg.any_ok.mpr hrest)
    exact ⟨m :: ms, ⟨ht', hm, hms⟩, by rw [textAll, List.append_assoc], build_cons.mpr ⟨v, _, hv, hvs, rfl⟩⟩

theorem read_below (n : ℕ) : ReadBelow n := by
  induction n with
  | zero => exact fun hu => absurd hu (Nat.not_lt_zero _)
  | succ n ih =>
    intro t u r cs hu h
    rw [rule_run] at h
    obtain ⟨cs, v, hchoice, hv, rfl⟩ := Peg.replace_ok.mp h
    obtain ⟨p, hp, hrun⟩ := Peg.choice_mem hchoice
    rcases hp with _ | ⟨_, _ | ⟨_, _ | _⟩⟩
    · obtain ⟨as, w, has, _, rfl, rfl⟩ := ending_sound hrun
      exact ⟨.empty t as w, v, rfl, has, rfl, hv, rfl⟩
    · obtain ⟨_, _, _, hopen, h₁, rfl⟩ := Peg.sequence_cons.mp hrun
      obtain ⟨_, _, _, hgroup, hclose, rfl⟩ := Peg.sequence_cons.mp h₁
      obtain ⟨as, w, has, _, rfl, rfl⟩ := ending_sound hopen
      obtain ⟨vs, hrow, rfl⟩ := Peg.group_ok.mp hgroup
      -- the children stand behind the opening tag
      have hlen := takes_text (by decide) hopen
      obtain ⟨ms, hms, rfl, hvs⟩ := children_sound ih (Nat.lt_of_lt_of_le hlen (Nat.le_of_lt_succ hu)) hrow
      obtain ⟨rfl, _, l, rfl⟩ := close_ok.mp (Peg.sequence_one.mp hclose)
      refine ⟨.paired t as w ms l, v, rfl, ⟨has, hms⟩, ?_, build_paired.mpr ⟨vs, hvs, hv⟩, rfl⟩
      simp only [Markup.text, List.append_assoc]

/-- What a rule reads is an element of its tag. -/
theorem rule_sound {t : Tag} {u r : List UInt8} {cs : List Janet} (h : t.rule.run u = .ok cs r) :
    ∃ (m : Markup) (v : Janet), m.tag = t ∧ m.Belongs ∧ u = m.text ++ r ∧ m.build = .ok v ∧ cs = [v] :=
  read_below (u.length + 1) (Nat.lt_succ_self _) h

/-! ### Being read -/

theorem tagText_begins (t : Tag) (as : List Attribute) (e : String) (w : Space) :
    bytesOf "<" ++ bytesOf t.name <+: tagText t as e w := by
  rw [tagText, ← List.append_assoc]
  exact List.prefix_append _ _

theorem text_begins (m : Markup) : bytesOf "<" ++ bytesOf m.tag.name <+: m.text := by
  cases m with
  | empty t as w => exact tagText_begins t as _ w
  | paired t as w ms l => exact (tagText_begins t as _ w).trans (List.prefix_append _ _)

/-- Only the rule of its own tag reads an element. -/
theorem rule_fail_other {t : Tag} {m : Markup} (h : t ≠ m.tag) (r : List UInt8) : t.rule.run (m.text ++ r) = .fail := by
  refine rule_fail fun hpre => h ?_
  have hown := (text_begins m).trans (List.prefix_append m.text r)
  rcases List.prefix_or_prefix_of_prefix hpre hown with hle | hle
  · exact name_free _ _ ((List.prefix_append_right_inj _).mp hle)
  · exact (name_free _ _ ((List.prefix_append_right_inj _).mp hle)).symm

/-- No rule reads a closing tag. -/
theorem rule_fail_close (t t' : Tag) (w : Space) (r : List UInt8) : t.rule.run (closeText t' w ++ r) = .fail := by
  refine rule_fail fun h => ?_
  obtain ⟨u, hu⟩ := h
  -- the names of tags are no slashes
  cases t <;> exact absurd (List.cons.inj (List.cons.inj hu).2).1 (by decide)

theorem tight_text_append (m : Markup) (r : List UInt8) : Tight (m.text ++ r) := by
  obtain ⟨u, hu⟩ := text_begins m
  rw [← hu, List.append_assoc, List.append_assoc]
  exact tight_text (by decide)

theorem tight_close (t : Tag) (w : Space) (r : List UInt8) : Tight (closeText t w ++ r) := by
  rw [closeText, List.append_assoc]
  exact tight_text (by decide)

theorem tight_row (ms : List Markup) (t : Tag) (w : Space) (r : List UInt8) :
    Tight (textAll ms ++ (closeText t w ++ r)) := by
  cases ms with
  | nil => exact tight_close t w r
  | cons m ms =>
    rw [textAll, List.append_assoc]
    exact tight_text_append m _

/-- A struct is captured, an error raised. -/
def outcome (o : Except String Janet) (r : List UInt8) : Peg.Outcome UInt8 Janet String :=
  match o with
  | .ok v => .ok [v] r
  | .error e => .raised e

theorem outcome_ne_fail (o : Except String Janet) (r : List UInt8) : outcome o r ≠ .fail := by
  cases o <;> simp [outcome]

theorem replace_outcome {p : Rule} {f : List Janet → Except String Janet} {u r : List UInt8} {cs : List Janet}
    (h : p.run u = .ok cs r) : (Peg.replace p f).run u = outcome (f cs) r := by
  cases hf : f cs with
  | ok v => exact Peg.replace_ok.mpr ⟨cs, v, h, hf, rfl⟩
  | error e => exact Peg.replace_error h hf

/-- At an element, the rules for the children do what the rule for its tag does. -/
theorem children_run {t : Tag} {m : Markup} {r : List UInt8} (ht : m.tag ∈ t.children)
    (h : m.tag.rule.run (m.text ++ r) = outcome m.build r) :
    (Peg.choice (t.children.map Tag.rule)).run (m.text ++ r) = outcome m.build r := by
  refine Peg.choice_of_mem (List.mem_map_of_mem ht) h (outcome_ne_fail _ _) fun q hq => ?_
  obtain ⟨t', _, rfl⟩ := List.mem_map.mp hq
  by_cases heq : t' = m.tag
  · exact .inr (heq ▸ h)
  · exact .inl (rule_fail_other heq r)

theorem text_length (m : Markup) (r : List UInt8) : r.length < (m.text ++ r).length := by
  obtain ⟨u, hu⟩ := text_begins m
  have hpos : 0 < (bytesOf "<").length := by decide
  rw [← hu]
  simp only [List.length_append]
  omega

mutual
/-- An element that belongs is read. -/
theorem rule_text : ∀ {m : Markup} {r : List UInt8}, m.Belongs → Tight r →
    m.tag.rule.run (m.text ++ r) = outcome m.build r
  | .empty t as w, r, hm, hr => by
    rw [rule_run, Markup.build]
    exact replace_outcome (Peg.choice_first (ending_run hm (by decide) hr) (by simp))
  | .paired t as w ms l, r, hm, hr => by
    obtain ⟨has, hms⟩ := hm
    have hopen := ending_run (e := ">") (w := w) has (by decide) (tight_row ms t l r)
    -- the empty tag would end otherwise
    have hempty : (emptyTag t.name (attributes t.attrs)).run (tagText t as ">" w ++ (textAll ms ++ (closeText t l ++ r))) =
        .fail := by
      refine ending_fail has (by decide) ?_
      rintro u ⟨x, hx⟩
      exact absurd (List.cons.inj hx).1 (by decide)
    rw [rule_run, Markup.text, List.append_assoc, List.append_assoc]
    cases hbuild : buildAll ms with
    | ok vs =>
      have hgroup : (Peg.group (row t) .array).run (textAll ms ++ (closeText t l ++ r)) =
          .ok [.array vs] (closeText t l ++ r) := Peg.group_ok.mpr ⟨vs, row_text hms hbuild t l r, rfl⟩
      have hclose : (closeTag t.name).run (closeText t l ++ r) = .ok [] r := close_ok.mpr ⟨rfl, hr, l, rfl⟩
      have hsequence := Peg.sequence_run hopen (Peg.sequence_run hgroup (Peg.sequence_one.mpr hclose))
      have hm : (Markup.paired t as w ms l).build = toStruct [str t.name, literal (as.map Attribute.entry), .array vs] := by
        rw [Markup.build, hbuild]
        rfl
      rw [hm]
      exact replace_outcome ((Peg.choice_next hempty).trans (Peg.choice_first hsequence (by simp)))
    | error e =>
      have hgroup : (Peg.group (row t) .array).run (textAll ms ++ (closeText t l ++ r)) = .raised e :=
        Peg.replace_raised (Peg.any_raised (row_raises hms hbuild t l r))
      have hsequence : (Peg.sequence [tagEnding t ">", Peg.group (row t) .array, closeTag t.name]).run
          (tagText t as ">" w ++ (textAll ms ++ (closeText t l ++ r))) = .raised e :=
        Peg.sequence_raised_tail hopen (Peg.sequence_raised hgroup)
      have hm : (Markup.paired t as w ms l).build = .error e := by
        rw [Markup.build, hbuild]
        rfl
      rw [hm]
      exact Peg.replace_raised ((Peg.choice_next hempty).trans (Peg.choice_first hsequence (by simp)))
theorem row_text : ∀ {t : Tag} {ms : List Markup} {vs : List Janet}, BelongIn t ms → buildAll ms = .ok vs →
    ∀ (t' : Tag) (l : Space) (r : List UInt8),
      (row t).run (textAll ms ++ (closeText t' l ++ r)) = .ok vs (closeText t' l ++ r)
  | t, [], vs, _, hvs, t', l, r => by
    obtain rfl := Except.ok.inj hvs
    refine Peg.any_ok.mpr (.stop (.inl (Peg.choice_fail fun p hp => ?_)))
    obtain ⟨t'', _, rfl⟩ := List.mem_map.mp hp
    exact rule_fail_close t'' t' l r
  | t, m :: ms, vs, hms, hvs, t', l, r => by
    obtain ⟨ht, hm, hms⟩ := hms
    obtain ⟨v, vs', hv, hvs', rfl⟩ := build_cons.mp hvs
    have hchild := children_run ht (rule_text hm (tight_row ms t' l r))
    rw [hv] at hchild
    rw [textAll, List.append_assoc]
    exact Peg.any_ok.mpr (.step hchild (text_length m _) (Peg.any_ok.mp (row_text hms hvs' t' l r)))
theorem row_raises : ∀ {t : Tag} {ms : List Markup} {e : String}, BelongIn t ms → buildAll ms = .error e →
    ∀ (t' : Tag) (l : Space) (r : List UInt8),
      Peg.Raises (Peg.choice (t.children.map Tag.rule)) e (textAll ms ++ (closeText t' l ++ r))
  | _, [], _, _, he, _, _, _ => absurd he (by simp [buildAll])
  | t, m :: ms, e, hms, he, t', l, r => by
    obtain ⟨ht, hm, hms⟩ := hms
    have hchild := children_run ht (rule_text hm (tight_row ms t' l r))
    rw [textAll, List.append_assoc]
    cases hv : m.build with
    | error e' =>
      rw [buildAll, hv] at he
      obtain rfl : e' = e := Except.error.inj he
      rw [hv] at hchild
      exact .here hchild
    | ok v =>
      have hrest : buildAll ms = .error e := by
        rw [buildAll, hv] at he
        cases hvs : buildAll ms with
        | ok vs => rw [hvs] at he; exact absurd he (by simp [bind, Except.bind, pure, Except.pure])
        | error e' => rw [hvs] at he; exact he
      rw [hv] at hchild
      exact .step hchild (text_length m _) (row_raises hms hrest t' l r)
end

/-! ### Documents -/

def gt : UInt8 := 62

structure Doctype where
  inner : List UInt8
  after : Space
  plain : gt ∉ inner

def Doctype.text (d : Doctype) : List UInt8 := bytesOf "<!DOCTYPE" ++ (d.inner ++ (bytesOf ">" ++ d.after.1))

/-- A node with all that belongs into it. -/
structure Document where
  doctype : Option Doctype
  root : Markup
  isNode : root.tag = .node
  belongs : root.Belongs

def documentText (doctype : Option Doctype) (root : Markup) : List UInt8 :=
  doctype.elim [] Doctype.text ++ root.text

def Document.text (d : Document) : List UInt8 := documentText d.doctype d.root

theorem doctype_ok {u r : List UInt8} {cs : List Janet} :
    doctype.run u = .ok cs r ↔ cs = [] ∧ Tight r ∧ ∃ d : Doctype, u = d.text ++ r := by
  constructor
  · intro h
    obtain ⟨_, _, _, hlit, h₁, rfl⟩ := Peg.sequence_cons.mp h
    obtain ⟨_, _, _, hthru, hs, rfl⟩ := Peg.sequence_cons.mp h₁
    obtain ⟨rfl, rfl⟩ := Peg.literal_ok.mp hlit
    obtain ⟨rfl, inner, hinner, rfl⟩ := Peg.thru_char.mp hthru
    obtain ⟨rfl, hr, w, rfl⟩ := any_s_ok.mp (Peg.sequence_one.mp hs)
    refine ⟨rfl, hr, ⟨inner, w, hinner⟩, ?_⟩
    simp only [Doctype.text, List.append_assoc]
    rfl
  · rintro ⟨rfl, hr, d, rfl⟩
    simp only [Doctype.text, List.append_assoc]
    refine Peg.sequence_run (Peg.literal_ok.mpr ⟨rfl, rfl⟩) ?_
    refine Peg.sequence_run (Peg.thru_char.mpr ⟨rfl, d.inner, d.plain, rfl⟩) ?_
    exact Peg.sequence_one.mpr (any_s_ok.mpr ⟨rfl, hr, d.after, rfl⟩)

theorem doctype_fail (m : Markup) (h : m.tag = .node) (r : List UInt8) : doctype.run (m.text ++ r) = .fail := by
  refine Peg.sequence_fail (Peg.literal_fail fun hpre => ?_)
  obtain ⟨u, hu⟩ := text_begins m
  obtain ⟨x, hx⟩ := hpre
  rw [← hu, h] at hx
  exact absurd (List.cons.inj (List.cons.inj hx).2).1 (by decide)

/-- The grammar reads documents only. -/
theorem grammar_sound {input r : List UInt8} {cs : List Janet} (h : grammar.run input = .ok cs r) :
    ∃ (d : Document) (v : Janet), input = d.text ∧ d.root.build = .ok v ∧ cs = [v] := by
  obtain ⟨_, _, _, hopt, h₁, rfl⟩ := Peg.sequence_cons.mp h
  obtain ⟨_, _, _, hnode, hend, rfl⟩ := Peg.sequence_cons.mp h₁
  obtain ⟨rfl, rfl, rfl⟩ := Peg.atEnd_ok.mp (Peg.sequence_one.mp hend)
  obtain ⟨m, v, htag, hm, rfl, hv, rfl⟩ := rule_sound (t := .node) hnode
  rw [List.append_nil] at hopt
  rcases Peg.opt_ok.mp hopt with hdoc | ⟨_, rfl, rfl⟩
  · obtain ⟨rfl, _, d, rfl⟩ := doctype_ok.mp hdoc
    exact ⟨⟨some d, m, htag, hm⟩, v, rfl, hv, rfl⟩
  · exact ⟨⟨none, m, htag, hm⟩, v, rfl, hv, rfl⟩

/-- It reads every document, and captures what is built of the root. -/
theorem grammar_text (d : Document) : grammar.run d.text = outcome d.root.build [] := by
  have hnode := rule_text (r := []) d.belongs (fun c hc => absurd hc (by simp))
  rw [d.isNode, List.append_nil] at hnode
  have htight : Tight d.root.text := by
    have h := tight_text_append d.root []
    rwa [List.append_nil] at h
  have hopt : (Peg.opt doctype).run d.text = .ok [] d.root.text := by
    rw [Peg.opt_ok, Document.text, documentText]
    cases d.doctype with
    | none =>
      have hfail := doctype_fail d.root d.isNode []
      rw [List.append_nil] at hfail
      exact .inr ⟨hfail, rfl, rfl⟩
    | some dt => exact .inl (doctype_ok.mpr ⟨rfl, htight, dt, rfl⟩)
  cases hbuild : d.root.build with
  | ok v =>
    rw [hbuild] at hnode
    exact Peg.sequence_run hopt (Peg.sequence_run hnode (Peg.sequence_one.mpr (Peg.atEnd_ok.mpr ⟨rfl, rfl, rfl⟩)))
  | error e =>
    rw [hbuild] at hnode
    exact Peg.sequence_raised_tail hopt (Peg.sequence_raised hnode)

/-! ### `parse-xml` -/

/-- What it returns for a node. -/
def spec (node destination path : Janet) : Janet :=
  literal [(kw "destination", default destination (str "")), (kw "path", default path (str "/")),
    (kw "interfaces", get node (kw "interfaces")), (kw "children", get node (kw "children"))]

/-- What a node becomes. -/
def nodeOf (path interfaces : Janet) (children : List Janet) : Janet :=
  .struct ((kw "path", path) :: (kw "interfaces", interfaces) :: present "children" children)

theorem nodeOf_children (path interfaces : Janet) (children : List Janet) :
    get (nodeOf path interfaces children) (kw "children") = group children := by
  cases children <;> rfl

theorem spec_nodeOf {name interfaces : Janet} (h : isNil interfaces = false) (children : List Janet)
    (destination path : Janet) :
    spec (nodeOf name interfaces children) destination path =
      .struct ((kw "destination", default destination (str "")) :: (kw "path", default path (str "/")) ::
        (kw "interfaces", interfaces) :: present "children" children) := by
  rw [spec, nodeOf_children]
  refine literal_present [("destination", default destination (str "")), ("path", default path (str "/")),
    ("interfaces", interfaces)] "children" (by simp) ?_ children
  rintro kv (_ | ⟨_, _ | ⟨_, _ | ⟨_, _ | _⟩⟩⟩)
  · exact isNil_default destination ""
  · exact isNil_default path "/"
  · exact h

theorem node_truthy {m : Markup} {v : Janet} (h : m.tag = .node) (hv : m.build = .ok v) : truthy v = true := by
  obtain ⟨vs, _, hstruct⟩ := build_iff.mp hv
  rw [h] at hstruct
  rw [← Except.ok.inj hstruct]
  rfl

/-- Of a document it returns the struct, or raises what `to-struct` has raised. -/
theorem parse_document (d : Document) (destination path : Janet) :
    parseXml d.text destination path = d.root.build.map fun v => spec v destination path := by
  rw [parseXml, grammar_text]
  cases hv : d.root.build with
  | ok v => exact if_pos (node_truthy d.isNode hv)
  | error e => rfl

/-- What is not `nil` has been read from a document. -/
theorem parse_ok {input : List UInt8} {destination path x : Janet} (h : parseXml input destination path = .ok x)
    (hx : x ≠ .nil) : ∃ d : Document, input = d.text := by
  rw [parseXml] at h
  cases hrun : grammar.run input with
  | fail => rw [hrun] at h; exact absurd (Except.ok.inj h).symm hx
  | raised e => rw [hrun] at h; exact absurd h (by simp)
  | ok cs r =>
    obtain ⟨d, _, hd, _⟩ := grammar_sound hrun
    exact ⟨d, hd⟩

end JanetSdbus.Introspect
