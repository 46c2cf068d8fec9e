import JanetSdbus.Introspect.Lossless

/-! What `parse-xml` does with any text at all.

    `to-struct` runs while the text is read, and raises as soon as an element is closed that lacks an
    attribute, whatever stands behind it and whether or not its parents are ever closed. So a text that
    is no document is answered with `nil` only if no such element is reached (`parse_verdict`). -/

namespace JanetSdbus.Introspect
open Message Schemes
open Export (bytesOf)

/-! ### Elements that lack something -/

/-- The attributes that `to-struct` asks for. -/
def Tag.required : Tag → List String
  | node => []
  | interface | method | signal => ["name"]
  | property => ["name", "type", "access"]
  | arg => ["type"]
  | annot => ["name", "value"]

/-- What it raises without them. -/
def Tag.complaint : Tag → String
  | node => ""
  | interface => "expected name attribute for interface"
  | method => "expected name attribute for method"
  | signal => "expected name attribute for signal"
  | property => "expected name, type, and access attributes for property"
  | arg => "expected type attribute for arg"
  | annot => "expected name and value attributes for annotation"

def Markup.Lacks (m : Markup) : Prop := ∃ key ∈ m.tag.required, m.value? key = none

inductive Markup.Complete : Markup → Prop where
  | intro {m : Markup} : ¬ m.Lacks → (∀ c ∈ m.children, c.Complete) → m.Complete

/-- The text begins with an element of tag `t`, within which one of tag `bad` is the first to be closed
    that lacks something. -/
inductive Flawed (bad : Tag) : Tag → List UInt8 → Prop where
  | here {m : Markup} (r : List UInt8) : m.tag = bad → m.Belongs → m.Lacks → (∀ c ∈ m.children, c.Complete) →
      Flawed bad bad (m.text ++ r)
  | inside {t t' : Tag} {as : List Attribute} {ms : List Markup} {u : List UInt8} (w : Space) :
      AttributesBelong t as → BelongIn t ms → (∀ c ∈ ms, c.Complete) → t' ∈ t.children → Flawed bad t' u →
      Flawed bad t (tagText t as ">" w ++ (textAll ms ++ u))

def FlawedText (bad : Tag) (input : List UInt8) : Prop :=
  ∃ (doctype : Option Doctype) (u : List UInt8), input = doctype.elim [] Doctype.text ++ u ∧ Flawed bad .node u

section structs
variable {m : Markup}

theorem lacks_iff : m.Lacks ↔ (m.tag.required.all fun key => (m.value? key).isSome) = false := by
  rw [List.all_eq_false]
  constructor
  · rintro ⟨key, hkey, hnone⟩
    exact ⟨key, hkey, by rw [hnone]; exact Bool.false_ne_true⟩
  · rintro ⟨key, hkey, hnone⟩
    exact ⟨key, hkey, Option.not_isSome_iff_eq_none.mp hnone⟩

/-- The check of the attributes comes first. -/
theorem struct_checks (m : Markup) (children : Janet) : ∃ x,
    m.tag.struct (str m.tag.name) m.attributeStruct children =
      if m.tag.required.all fun key => (m.value? key).isSome then .ok x else .error m.tag.complaint := by
  cases m.tag with
  | node => exact ⟨_, rfl⟩
  | interface =>
    show ∃ x, interfaceStruct (str "interface") m.attributeStruct children = _
    rw [interfaceStruct, truthy_attribute]
    simp only [Tag.required, List.all_cons, List.all_nil, Bool.and_true]
    exact ⟨_, rfl⟩
  | method =>
    show ∃ x, methodStruct (str "method") m.attributeStruct children = _
    rw [methodStruct, truthy_attribute]
    simp only [Tag.required, List.all_cons, List.all_nil, Bool.and_true]
    exact ⟨_, rfl⟩
  | signal =>
    show ∃ x, signalStruct (str "signal") m.attributeStruct children = _
    rw [signalStruct, truthy_attribute]
    simp only [Tag.required, List.all_cons, List.all_nil, Bool.and_true]
    exact ⟨_, rfl⟩
  | property =>
    show ∃ x, propertyStruct (str "property") m.attributeStruct children = _
    rw [propertyStruct, truthy_attribute, truthy_attribute, truthy_attribute]
    simp only [Tag.required, List.all_cons, List.all_nil, Bool.and_true, Bool.and_assoc]
    exact ⟨_, rfl⟩
  | arg =>
    show ∃ x, argStruct (str "arg") m.attributeStruct children = _
    rw [argStruct, truthy_attribute]
    simp only [Tag.required, List.all_cons, List.all_nil, Bool.and_true]
    exact ⟨_, rfl⟩
  | annot =>
    show ∃ x, annotationStruct (str "annotation") m.attributeStruct children = _
    rw [annotationStruct, truthy_attribute, truthy_attribute]
    simp only [Tag.required, List.all_cons, List.all_nil, Bool.and_true]
    exact ⟨_, rfl⟩

theorem build_children {vs : List Janet} (h : buildAll m.children = .ok vs) :
    m.build = m.tag.struct (str m.tag.name) m.attributeStruct (.array vs) := by
  cases m with
  | empty t as w =>
    obtain rfl := Except.ok.inj h
    rw [Markup.build, toStruct, dispatch_tag]
    rfl
  | paired t as w ms l =>
    replace h : buildAll ms = .ok vs := h
    rw [Markup.build, h]
    show toStruct [str t.name, literal (as.map Attribute.entry), .array vs] = _
    rw [toStruct, dispatch_tag]
    rfl

theorem build_lacks {vs : List Janet} (h : buildAll m.children = .ok vs) (hlacks : m.Lacks) :
    m.build = .error m.tag.complaint := by
  obtain ⟨x, hx⟩ := struct_checks m (.array vs)
  rw [build_children h, hx, lacks_iff.mp hlacks]
  rfl

theorem build_raises {vs : List Janet} {e : String} (h : buildAll m.children = .ok vs) (he : m.build = .error e) :
    m.Lacks ∧ e = m.tag.complaint := by
  obtain ⟨x, hx⟩ := struct_checks m (.array vs)
  rw [build_children h, hx] at he
  split at he
  · cases he
  · next hall => exact ⟨lacks_iff.mpr (Bool.eq_false_iff.mpr hall), (Except.error.inj he).symm⟩

theorem built_all {ms : List Markup} (h : ∀ m ∈ ms, ∃ v, m.build = .ok v) : ∃ vs, buildAll ms = .ok vs := by
  induction ms with
  | nil => exact ⟨[], rfl⟩
  | cons m ms ih =>
    obtain ⟨v, hv⟩ := h m List.mem_cons_self
    obtain ⟨vs, hvs⟩ := ih fun m' hm' => h m' (List.mem_cons_of_mem m hm')
    exact ⟨v :: vs, build_cons.mpr ⟨v, vs, hv, hvs, rfl⟩⟩

/-- Only elements to which nothing is lacking become structs. -/
theorem complete_build (h : m.Complete) : ∃ v, m.build = .ok v := by
  induction h with
  | @intro m hlacks _ ih =>
    obtain ⟨vs, hvs⟩ := built_all ih
    cases hbuild : m.build with
    | ok v => exact ⟨v, rfl⟩
    | error e => exact absurd (build_raises hvs hbuild).1 hlacks

theorem complete_all {ms : List Markup} (h : ∀ m ∈ ms, m.Complete) : ∃ vs, buildAll ms = .ok vs :=
  built_all fun m hm => complete_build (h m hm)

theorem complete_of_children {v : Janet} (hv : m.build = .ok v) (h : ∀ c ∈ m.children, c.Complete) : m.Complete := by
  refine .intro (fun hlacks => ?_) h
  obtain ⟨vs, hvs⟩ := complete_all h
  rw [build_lacks hvs hlacks] at hv
  cases hv

mutual
theorem build_complete : ∀ {m : Markup} {v : Janet}, m.build = .ok v → m.Complete
  | .empty _ _ _, _, hv => complete_of_children hv fun _ hc => absurd hc List.not_mem_nil
  | .paired t as w ms l, v, hv => by
    obtain ⟨vs, hvs, _⟩ := build_paired.mp hv
    exact complete_of_children hv (buildAll_complete hvs)
theorem buildAll_complete : ∀ {ms : List Markup} {vs : List Janet}, buildAll ms = .ok vs → ∀ m ∈ ms, m.Complete
  | [], _, _ => fun _ hm => absurd hm List.not_mem_nil
  | m :: ms, _, hvs => by
    obtain ⟨v, vs', hv, hvs', _⟩ := build_cons.mp hvs
    intro m' hm'
    rcases List.mem_cons.mp hm' with heq | hm'
    · rw [heq]
      exact build_complete hv
    · exact buildAll_complete hvs' m' hm'
end

end structs

/-! ### Rules that raise nothing -/

theorem quiet_text (w : String) : Peg.Quiet (text w) := Peg.quiet_literal _

theorem quiet_s : Peg.Quiet s := Peg.quiet_satisfy _

theorem quiet_attr (keys : List String) : Peg.Quiet (attr keys) := by
  rw [attr]
  split
  · exact quiet_s
  · refine Peg.quiet_sequence fun p hp => ?_
    have hkey : Peg.Quiet (Peg.choice (keys.map text)) := by
      refine Peg.quiet_choice fun q hq => ?_
      obtain ⟨key, _, rfl⟩ := List.mem_map.mp hq
      exact quiet_text key
    have hplain : Peg.Quiet (Peg.ifNot (text "\"") (Peg.satisfy fun _ => true)) :=
      Peg.quiet_ifNot (quiet_text "\"") (Peg.quiet_satisfy _)
    simp only [List.mem_cons, List.not_mem_nil, or_false] at hp
    rcases hp with rfl | rfl | rfl | rfl | rfl
    · exact Peg.quiet_replace (Peg.quiet_capture hkey _) fun _ cs _ _ => ⟨keyword (cs.headD .nil), rfl⟩
    · exact quiet_text "="
    · exact quiet_text "\""
    · exact Peg.quiet_capture (Peg.quiet_any hplain) _
    · exact quiet_text "\""

theorem quiet_attributes (t : Tag) : Peg.Quiet (attributes t.attrs) := by
  have hspaced : Peg.Quiet (spaced t) := by
    refine Peg.quiet_sequence fun p hp => ?_
    rcases List.mem_pair.mp hp with rfl | rfl
    · exact Peg.quiet_some quiet_s
    · exact quiet_attr t.attrs
  refine Peg.quiet_replace (Peg.quiet_replace (Peg.quiet_any hspaced) fun _ cs _ _ => ⟨.array cs, rfl⟩) ?_
  intro u cs r hrun
  obtain ⟨_, hrow, rfl⟩ := Peg.group_ok.mp hrun
  obtain ⟨as, _, _, rfl⟩ := row_sound hrow
  exact ⟨_, struct_captures as⟩

theorem quiet_ending (t : Tag) (e : String) : Peg.Quiet (tagEnding t e) := by
  refine Peg.quiet_sequence fun p hp => ?_
  simp only [List.mem_cons, List.not_mem_nil, or_false] at hp
  rcases hp with rfl | rfl | rfl | rfl | rfl
  · exact quiet_text "<"
  · exact Peg.quiet_capture (quiet_text t.name) _
  · exact quiet_attributes t
  · exact quiet_text e
  · exact Peg.quiet_any quiet_s

theorem quiet_close (t : Tag) : Peg.Quiet (closeTag t.name) := by
  refine Peg.quiet_sequence fun p hp => ?_
  simp only [List.mem_cons, List.not_mem_nil, or_false] at hp
  rcases hp with rfl | rfl | rfl | rfl
  · exact quiet_text "</"
  · exact quiet_text t.name
  · exact quiet_text ">"
  · exact Peg.quiet_any quiet_s

theorem quiet_doctype : Peg.Quiet doctype := by
  refine Peg.quiet_sequence fun p hp => ?_
  simp only [List.mem_cons, List.not_mem_nil, or_false] at hp
  rcases hp with rfl | rfl | rfl
  · exact quiet_text "<!DOCTYPE"
  · exact Peg.quiet_thru (quiet_text ">")
  · exact Peg.quiet_any quiet_s

/-! ### What is raised -/

/-- Of texts shorter than `n`, the rules raise only the complaints of flawed ones. -/
def RaiseBelow (n : ℕ) : Prop :=
  ∀ {t : Tag} {u : List UInt8} {e : String}, u.length < n → t.rule.run u = .raised e →
    ∃ bad, Flawed bad t u ∧ e = bad.complaint

theorem children_raised {n : ℕ} (ih : RaiseBelow n) {t : Tag} {u : List UInt8} {e : String} (hu : u.length < n)
    (h : Peg.Raises (Peg.choice (t.children.map Tag.rule)) e u) :
    ∃ ms t' u' bad, BelongIn t ms ∧ (∀ c ∈ ms, c.Complete) ∧ t' ∈ t.children ∧ Flawed bad t' u' ∧
      u = textAll ms ++ u' ∧ e = bad.complaint := by
  induction h with
  | here hrun =>
    obtain ⟨p, hp, hrun⟩ := Peg.choice_raised_mem hrun
    obtain ⟨t', ht', rfl⟩ := List.mem_map.mp hp
    obtain ⟨bad, hflawed, he⟩ := ih hu hrun
    exact ⟨[], t', _, bad, trivial, fun _ hc => absurd hc List.not_mem_nil, ht', hflawed, rfl, he⟩
  | step hrun hlt _ ihrest =>
    obtain ⟨p, hp, hrun⟩ := Peg.choice_mem hrun
    obtain ⟨t₁, ht₁, rfl⟩ := List.mem_map.mp hp
    obtain ⟨m, v, rfl, hm, rfl, hv, _⟩ := rule_sound hrun
    obtain ⟨ms, t', u', bad, hms, hcomplete, ht', hflawed, rfl, he⟩ := ihrest (Nat.lt_trans hlt hu)
    refine ⟨m :: ms, t', u', bad, ⟨ht₁, hm, hms⟩, ?_, ht', hflawed, by rw [textAll, List.append_assoc], he⟩
    intro c hc
    rcases List.mem_cons.mp hc with rfl | hc
    · exact build_complete hv
    · exact hcomplete c hc

theorem raise_below (n : ℕ) : RaiseBelow n := by
  induction n with
  | zero => exact fun hu => absurd hu (Nat.not_lt_zero _)
  | succ n ih =>
    intro t u e hu h
    rw [rule_run] at h
    rcases Peg.replace_raised_iff.mp h with hraised | ⟨cs, r, hchoice, herror⟩
    · obtain ⟨p, hp, hrun⟩ := Peg.choice_raised_mem hraised
      rcases List.mem_pair.mp hp with rfl | rfl
      · exact absurd hrun (quiet_ending t "/>" u e)
      · rcases Peg.sequence_raised_cons hrun with hopen | ⟨_, u', hopen, hrest⟩
        · exact absurd hopen (quiet_ending t ">" u e)
        · obtain ⟨as, w, has, _, rfl, _⟩ := ending_sound hopen
          have hlen := takes_text (by decide) hopen
          rcases Peg.sequence_raised_cons hrest with hgroup | ⟨_, u'', _, hclose⟩
          · rcases Peg.replace_raised_iff.mp hgroup with hrow | ⟨_, _, _, hmade⟩
            · have hu' := Nat.lt_of_lt_of_le hlen (Nat.le_of_lt_succ hu)
              obtain ⟨ms, t', u', bad, hms, hcomplete, ht', hflawed, rfl, he⟩ :=
                children_raised ih hu' (Peg.raises_of_any hrow)
              exact ⟨bad, .inside w has hms hcomplete ht' hflawed, he⟩
            · cases hmade
          · refine absurd hclose (Peg.quiet_sequence (fun p hp => ?_) u'' e)
            obtain rfl := List.mem_singleton.mp hp
            exact quiet_close t
    · -- the element is closed, and lacks something
      obtain ⟨p, hp, hrun⟩ := Peg.choice_mem hchoice
      rcases List.mem_pair.mp hp with rfl | rfl
      · obtain ⟨as, w, has, _, rfl, rfl⟩ := ending_sound hrun
        obtain ⟨hlacks, rfl⟩ := build_raises (m := .empty t as w) (show buildAll [] = .ok [] from rfl) herror
        exact ⟨t, .here (m := .empty t as w) r rfl has hlacks fun _ hc => absurd hc List.not_mem_nil, rfl⟩
      · obtain ⟨_, _, _, hopen, h₁, rfl⟩ := Peg.sequence_cons.mp hrun
        obtain ⟨_, _, _, hgroup, hclose, rfl⟩ := Peg.sequence_cons.mp h₁
        obtain ⟨as, w, has, _, rfl, rfl⟩ := ending_sound hopen
        obtain ⟨vs, hrow, rfl⟩ := Peg.group_ok.mp hgroup
        obtain ⟨ms, hms, rfl, hvs⟩ := children_sound (read_below _) (Nat.lt_succ_self _) hrow
        obtain ⟨rfl, _, l, rfl⟩ := close_ok.mp (Peg.sequence_one.mp hclose)
        have hbuild : (Markup.paired t as w ms l).build = .error e := by
          rw [Markup.build, hvs]
          exact herror
        obtain ⟨hlacks, rfl⟩ := build_raises (m := .paired t as w ms l) hvs hbuild
        have hflawed := Flawed.here r rfl (show (Markup.paired t as w ms l).Belongs from ⟨has, hms⟩) hlacks
          (buildAll_complete hvs)
        simp only [Markup.text, List.append_assoc] at hflawed
        exact ⟨t, hflawed, rfl⟩

/-- What a rule raises is the complaint about a flaw. -/
theorem rule_raised {t : Tag} {u : List UInt8} {e : String} (h : t.rule.run u = .raised e) :
    ∃ bad, Flawed bad t u ∧ e = bad.complaint := raise_below (u.length + 1) (Nat.lt_succ_self _) h

/-! ### What raises -/

theorem flawed_begins {bad t : Tag} {u : List UInt8} (h : Flawed bad t u) : bytesOf "<" ++ bytesOf t.name <+: u := by
  cases h with
  | here r ht => exact ht ▸ (text_begins _).trans (List.prefix_append _ r)
  | inside w => exact (tagText_begins _ _ _ w).trans (List.prefix_append _ _)

theorem tight_flawed {bad t : Tag} {u : List UInt8} (h : Flawed bad t u) : Tight u := by
  obtain ⟨v, hv⟩ := flawed_begins h
  rw [← hv, List.append_assoc]
  exact tight_text (by decide)

/-- The space behind an element is its own. -/
theorem tighten (m : Markup) (r : List UInt8) : ∃ (m' : Markup) (r' : List UInt8), m.text ++ r = m'.text ++ r' ∧ Tight r' ∧
    m'.tag = m.tag ∧ m'.attributes = m.attributes ∧ m'.children = m.children := by
  have hsplit : r = r.takeWhile isSpace ++ r.dropWhile isSpace := List.takeWhile_append_dropWhile.symm
  have htight : Tight (r.dropWhile isSpace) := by
    intro c hc
    have hnot := List.head?_dropWhile_not isSpace r
    rw [hc] at hnot
    simpa using hnot
  have hspace : ∀ w : Space, ∀ c ∈ w.1 ++ r.takeWhile isSpace, isSpace c = true := by
    intro w c hc
    rcases List.mem_append.mp hc with hc | hc
    · exact w.2 c hc
    · exact List.mem_takeWhile_imp hc
  cases m with
  | empty t as w =>
    refine ⟨.empty t as ⟨_, hspace w⟩, r.dropWhile isSpace, ?_, htight, rfl, rfl, rfl⟩
    conv_lhs => rw [hsplit]
    simp only [Markup.text, tagText, List.append_assoc]
  | paired t as w ms l =>
    refine ⟨.paired t as w ms ⟨_, hspace l⟩, r.dropWhile isSpace, ?_, htight, rfl, rfl, rfl⟩
    conv_lhs => rw [hsplit]
    simp only [Markup.text, closeText, List.append_assoc]

/-- The children before the flaw are read, and then it is reached. -/
theorem row_flawed {t t' bad : Tag} {ms : List Markup} {u : List UInt8} {e : String} (hms : BelongIn t ms)
    (hcomplete : ∀ c ∈ ms, c.Complete) (ht' : t' ∈ t.children) (hbegins : Flawed bad t' u)
    (hu : t'.rule.run u = .raised e) : Peg.Raises (Peg.choice (t.children.map Tag.rule)) e (textAll ms ++ u) := by
  induction ms with
  | nil =>
    refine .here (Peg.choice_of_mem (List.mem_map_of_mem ht') hu (by simp) fun q hq => ?_)
    obtain ⟨t₁, _, rfl⟩ := List.mem_map.mp hq
    by_cases heq : t₁ = t'
    · exact .inr (heq ▸ hu)
    · refine .inl (rule_fail fun hpre => heq ?_)
      rcases List.prefix_or_prefix_of_prefix hpre (flawed_begins hbegins) with hle | hle
      · exact name_free _ _ ((List.prefix_append_right_inj _).mp hle)
      · exact (name_free _ _ ((List.prefix_append_right_inj _).mp hle)).symm
  | cons m ms ih =>
    obtain ⟨ht, hm, hms⟩ := hms
    have htight : Tight (textAll ms ++ u) := by
      cases ms with
      | nil => exact tight_flawed hbegins
      | cons m' ms' =>
        rw [textAll, List.append_assoc]
        exact tight_text_append m' _
    obtain ⟨v, hv⟩ := complete_build (hcomplete m List.mem_cons_self)
    have hchild := children_run ht (rule_text hm htight)
    rw [hv] at hchild
    rw [textAll, List.append_assoc]
    exact .step hchild (text_length m _) (ih hms fun c hc => hcomplete c (List.mem_cons_of_mem m hc))

/-- A flaw is complained about, whatever comes behind it. -/
theorem flawed_raises {bad t : Tag} {u : List UInt8} (h : Flawed bad t u) : t.rule.run u = .raised bad.complaint := by
  induction h with
  | @here m r ht hm hlacks hcomplete =>
    obtain ⟨m', r', htext, htight, htag, hattrs, hchildren⟩ := tighten m r
    have hm' : m'.Belongs := by
      rw [belongs_iff, htag, hattrs, hchildren]
      exact (belongs_iff m).mp hm
    have hlacks' : m'.Lacks := by
      obtain ⟨key, hkey, hnone⟩ := hlacks
      refine ⟨key, htag ▸ hkey, ?_⟩
      rw [Markup.value?, hattrs]
      exact hnone
    obtain ⟨vs, hvs⟩ := complete_all hcomplete
    have hrun := rule_text hm' htight
    rw [build_lacks (hchildren ▸ hvs) hlacks', htag, ht] at hrun
    rw [htext]
    exact hrun
  | @inside t t' as ms u w has hms hcomplete ht' hflawed ih =>
    have htight : Tight (textAll ms ++ u) := by
      cases ms with
      | nil => exact tight_flawed hflawed
      | cons m ms =>
        rw [textAll, List.append_assoc]
        exact tight_text_append m _
    have hopen := ending_run (e := ">") (w := w) has (by decide) htight
    have hempty : (emptyTag t.name (attributes t.attrs)).run (tagText t as ">" w ++ (textAll ms ++ u)) = .fail := by
      refine ending_fail has (by decide) ?_
      rintro v ⟨x, hx⟩
      exact absurd (List.cons.inj hx).1 (by decide)
    have hgroup : (Peg.group (row t) .array).run (textAll ms ++ u) = .raised bad.complaint :=
      Peg.replace_raised (Peg.any_raised (row_flawed hms hcomplete ht' hflawed ih))
    have hsequence : (Peg.sequence [tagEnding t ">", Peg.group (row t) .array, closeTag t.name]).run
        (tagText t as ">" w ++ (textAll ms ++ u)) = .raised bad.complaint :=
      Peg.sequence_raised_tail hopen (Peg.sequence_raised hgroup)
    rw [rule_run]
    exact Peg.replace_raised ((Peg.choice_next hempty).trans (Peg.choice_first hsequence (by simp)))

/-! ### The verdict -/

theorem grammar_raised {input : List UInt8} {e : String} :
    grammar.run input = .raised e ↔ ∃ bad, FlawedText bad input ∧ e = bad.complaint := by
  constructor
  · intro h
    rcases Peg.sequence_raised_cons h with hopt | ⟨_, u, hopt, hrest⟩
    · obtain ⟨_, _, hok⟩ := Peg.opt_quiet quiet_doctype input
      rw [hopt] at hok
      cases hok
    · have hnode : node.run u = .raised e := by
        rcases Peg.sequence_raised_cons hrest with hnode | ⟨_, u', _, hend⟩
        · exact hnode
        · refine absurd hend (Peg.quiet_sequence (fun p hp => ?_) u' e)
          obtain rfl := List.mem_singleton.mp hp
          exact Peg.quiet_atEnd
      obtain ⟨bad, hflawed, he⟩ := rule_raised (t := .node) hnode
      rcases Peg.opt_ok.mp hopt with hdoc | ⟨_, _, rfl⟩
      · obtain ⟨_, _, d, rfl⟩ := doctype_ok.mp hdoc
        exact ⟨bad, ⟨some d, u, rfl, hflawed⟩, he⟩
      · exact ⟨bad, ⟨none, input, rfl, hflawed⟩, he⟩
  · rintro ⟨bad, ⟨dt, u, rfl, hflawed⟩, rfl⟩
    have hopt : (Peg.opt doctype).run (dt.elim [] Doctype.text ++ u) = .ok [] u := by
      rw [Peg.opt_ok]
      cases dt with
      | some d => exact .inl (doctype_ok.mpr ⟨rfl, tight_flawed hflawed, d, rfl⟩)
      | none =>
        refine .inr ⟨Peg.sequence_fail (Peg.literal_fail fun hpre => ?_), rfl, rfl⟩
        obtain ⟨v, rfl⟩ := flawed_begins hflawed
        obtain ⟨x, hx⟩ := hpre
        exact absurd (List.cons.inj (List.cons.inj hx).2).1 (by decide)
    exact Peg.sequence_raised_tail hopt (Peg.sequence_raised (flawed_raises (t := .node) hflawed))

/-- Every text is a document that is parsed, or runs into an element that lacks something, about which
    `parse-xml` complains, or is answered with `nil`. The recursion limit of the engine, which raises on
    elements nested too deeply, is left out. -/
theorem parse_verdict (input : List UInt8) (destination path : Janet) :
    (∀ e, parseXml input destination path = .error e ↔ ∃ bad, FlawedText bad input ∧ e = bad.complaint) ∧
    (∀ x, parseXml input destination path = .ok x ↔
      (∃ (d : Document) (v : Janet), input = d.text ∧ d.root.Complete ∧ d.root.build = .ok v ∧
        x = spec v destination path) ∨
      x = .nil ∧ (∀ bad, ¬ FlawedText bad input) ∧ ∀ d : Document, input ≠ d.text) := by
  cases hrun : grammar.run input with
  | raised e' =>
    obtain ⟨bad, hflawed, rfl⟩ := grammar_raised.mp hrun
    have hparse : parseXml input destination path = .error bad.complaint := by rw [parseXml, hrun]
    refine ⟨fun e => ⟨fun h => ?_, ?_⟩, fun x => ⟨fun h => ?_, ?_⟩⟩
    · rw [hparse] at h
      exact ⟨bad, hflawed, (Except.error.inj h).symm⟩
    · rintro ⟨bad', hflawed', rfl⟩
      have hraised := grammar_raised.mpr ⟨bad', hflawed', rfl⟩
      rw [hparse, ← Peg.Outcome.raised.inj (hrun.symm.trans hraised)]
    · rw [hparse] at h
      cases h
    · rintro (⟨d, v, rfl, _, hv, _⟩ | ⟨_, hno, _⟩)
      · rw [grammar_text, hv] at hrun
        cases hrun
      · exact absurd hflawed (hno bad)
  | fail =>
    have hparse : parseXml input destination path = .ok .nil := by rw [parseXml, hrun]
    have hno : ∀ bad, ¬ FlawedText bad input := by
      intro bad hflawed
      cases hrun.symm.trans (grammar_raised.mpr ⟨bad, hflawed, rfl⟩)
    have hnodoc : ∀ d : Document, input ≠ d.text := by
      rintro d rfl
      exact outcome_ne_fail _ _ ((grammar_text d).symm.trans hrun)
    refine ⟨fun e => ⟨fun h => ?_, ?_⟩, fun x => ⟨fun h => ?_, ?_⟩⟩
    · rw [hparse] at h
      cases h
    · rintro ⟨bad, hflawed, _⟩
      exact absurd hflawed (hno bad)
    · rw [hparse] at h
      exact .inr ⟨(Except.ok.inj h).symm, hno, hnodoc⟩
    · rintro (⟨d, _, hd, _⟩ | ⟨rfl, _⟩)
      · exact absurd hd (hnodoc d)
      · exact hparse
  | ok cs r =>
    obtain ⟨d, v, rfl, hv, rfl⟩ := grammar_sound hrun
    have hparse : parseXml d.text destination path = .ok (spec v destination path) := by
      rw [parse_document, hv]
      rfl
    have hno : ∀ bad, ¬ FlawedText bad d.text := by
      intro bad hflawed
      cases hrun.symm.trans (grammar_raised.mpr ⟨bad, hflawed, rfl⟩)
    refine ⟨fun e => ⟨fun h => ?_, ?_⟩, fun x => ⟨fun h => ?_, ?_⟩⟩
    · rw [hparse] at h
      cases h
    · rintro ⟨bad, hflawed, _⟩
      exact absurd hflawed (hno bad)
    · rw [hparse] at h
      exact .inl ⟨d, v, rfl, build_complete hv, hv, (Except.ok.inj h).symm⟩
    · rintro (⟨d', v', hd, _, hv', rfl⟩ | ⟨_, _, hnodoc⟩)
      · rw [hd, parse_document, hv']
        rfl
      · exact absurd rfl (hnodoc d)

end JanetSdbus.Introspect
