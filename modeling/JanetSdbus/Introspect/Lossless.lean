import Mathlib.Data.List.Perm.Subperm
import JanetSdbus.Introspect.Reading
import JanetSdbus.Message.Outgoing

/-! What introspection keeps of a document.

    `Keeps` says that nothing is lost: each argument of a method is in one of its two lists, and each
    member and each interface has an entry of its own, under its name. An argument is lost if its
    direction is not given as `in` or `out`; of members, or interfaces, of one name the last one
    remains; and an interface with the name `path` is taken for a node. Nothing else is lost
    (`keeps_iff`). -/

namespace JanetSdbus.Introspect
open Message
open Export (bytesOf)

/-! ### Kept -/

def Markup.args (m : Markup) : List Markup := m.children.filter fun c => c.tag = .arg

def Markup.members (m : Markup) : List Markup :=
  m.children.filter fun c => c.tag = .method ∨ c.tag = .signal ∨ c.tag = .property

def Markup.interfaces (m : Markup) : List Markup := m.children.filter fun c => c.tag = .interface

def Markup.nodes (m : Markup) : List Markup := m.children.filter fun c => c.tag = .node

/-- The value of an attribute that is there. -/
def Markup.value (m : Markup) (key : String) : List UInt8 := (m.value? key).getD []

def Markup.nameKey (m : Markup) : Janet := .keyword (m.value "name")

/-- The elements have become these values. -/
def Built (ms : List Markup) (vs : List Janet) : Prop := List.Forall₂ (fun m v => m.build = .ok v) ms vs

/-- Arguments go to one of two lists, in their order; one that says nothing of its direction is an
    input. -/
inductive Splits : List Markup → List Markup → List Markup → Prop where
  | nil : Splits [] [] []
  | input {a : Markup} {as ins outs : List Markup} : a.value? "direction" ≠ some (bytesOf "out") →
      Splits as ins outs → Splits (a :: as) (a :: ins) outs
  | output {a : Markup} {as ins outs : List Markup} : a.value? "direction" ≠ none →
      a.value? "direction" ≠ some (bytesOf "in") → Splits as ins outs → Splits (a :: as) ins (a :: outs)

/-- `(map |(get $ :type) (get method :in))` -/
def methodTypes (method : Janet) : List (List UInt8) :=
  (elements (get method (kw "in"))).map fun arg => (janetBytesView (get arg (kw "type"))).getD []

/-- The signature that `proxy-method` builds. -/
def proxySignature (method : Janet) : List UInt8 :=
  (Operation.proxyMethod ⟨.nil, .nil, .nil⟩ .nil (methodTypes method)).signature

def MethodKept (m : Markup) (w : Janet) : Prop :=
  get w (kw "kind") = .symbol (bytesOf "method") ∧
    ∃ ins outs vs us, Splits m.args ins outs ∧ Built ins vs ∧ get w (kw "in") = .array vs ∧
      Built outs us ∧ get w (kw "out") = .array us ∧ proxySignature w = (ins.map fun a => a.value "type").flatten

def SignalKept (m : Markup) (w : Janet) : Prop :=
  get w (kw "kind") = .symbol (bytesOf "signal") ∧ ∃ vs, Built m.args vs ∧ get w (kw "args") = .array vs

def PropertyKept (m : Markup) (w : Janet) : Prop :=
  get w (kw "kind") = .symbol (bytesOf "property") ∧ get w (kw "type") = .string (m.value "type") ∧
    get w (kw "access") = .string (m.value "access")

def MemberKept (m : Markup) (w : Janet) : Prop :=
  match m.tag with
  | .method => MethodKept m w
  | .signal => SignalKept m w
  | .property => PropertyKept m w
  | _ => True

/-- Each element has an entry of its own, under its name. -/
def Entries (Kept : Markup → Janet → Prop) (ms : List Markup) (kvs : List (Janet × Janet)) : Prop :=
  ∃ es, es.Subperm kvs ∧ List.Forall₂ (fun m e => e.1 = m.nameKey ∧ Kept m e.2) ms es

def InterfaceKept (m : Markup) (w : Janet) : Prop :=
  Entries MemberKept m.members (pairs (get w (kw "members")))

/-- Nothing of the node is lost, nor of the nodes below. -/
inductive Keeps : Markup → Janet → Prop where
  | node {m : Markup} {v : Janet} : Entries InterfaceKept m.interfaces (pairs (get v (kw "interfaces"))) →
      List.Forall₂ Keeps m.nodes (elements (get v (kw "children"))) → Keeps m v

/-! ### Distinct names and directions -/

/-- Each argument says that it is an input, or that it is an output. -/
def Directed (m : Markup) : Prop :=
  ∀ a ∈ m.args, a.value? "direction" = some (bytesOf "in") ∨ a.value? "direction" = some (bytesOf "out")

def names (ms : List Markup) : List (List UInt8) := ms.map fun m => m.value "name"

structure InterfaceDistinct (m : Markup) : Prop where
  directed : ∀ c ∈ m.members, c.tag = .method → Directed c
  members : (names m.members).Nodup

inductive Distinct : Markup → Prop where
  | node {m : Markup} : (names m.interfaces).Nodup → bytesOf "path" ∉ names m.interfaces →
      (∀ i ∈ m.interfaces, InterfaceDistinct i) → (∀ n ∈ m.nodes, Distinct n) → Distinct m

/-! ### Lists -/

section lists
variable {α β : Type} {R : α → β → Prop} {xs : List α} {ys : List β}

theorem forall₂_filter {f : β → Bool} {g : α → Bool} (hs : List.Forall₂ R xs ys)
    (h : ∀ a b, a ∈ xs → R a b → f b = g a) : List.Forall₂ R (xs.filter g) (ys.filter f) := by
  induction hs with
  | nil => exact .nil
  | @cons a b xs ys hab _ ih =>
    have htail := ih fun a b ha => h a b (List.mem_cons_of_mem _ ha)
    have hhead := h a b List.mem_cons_self hab
    rw [List.filter_cons, List.filter_cons, hhead]
    split
    · exact .cons hab htail
    · exact htail

/-- Each `b` is made of something. -/
theorem forall₂_made {γ : Type} (mk : γ → β) {S : α → γ → Prop} (hs : List.Forall₂ R xs ys)
    (h : ∀ a b, a ∈ xs → R a b → ∃ c, b = mk c ∧ S a c) : ∃ cs, ys = cs.map mk ∧ List.Forall₂ S xs cs := by
  induction hs with
  | nil => exact ⟨[], rfl, .nil⟩
  | @cons a b xs ys hab _ ih =>
    obtain ⟨c, rfl, hc⟩ := h a b List.mem_cons_self hab
    obtain ⟨cs, rfl, hcs⟩ := ih fun a b ha => h a b (List.mem_cons_of_mem _ ha)
    exact ⟨c :: cs, rfl, .cons hc hcs⟩

theorem forall₂_iff {S : α → β → Prop} {P : α → Prop} (hs : List.Forall₂ R xs ys)
    (h : ∀ a b, a ∈ xs → R a b → (S a b ↔ P a)) : List.Forall₂ S xs ys ↔ ∀ a ∈ xs, P a := by
  induction hs with
  | nil => exact ⟨fun _ a ha => absurd ha (by simp), fun _ => .nil⟩
  | @cons a b xs ys hab _ ih =>
    have htail := ih fun a b ha => h a b (List.mem_cons_of_mem _ ha)
    rw [List.forall₂_cons, List.forall_mem_cons, h a b List.mem_cons_self hab, htail]

end lists

/-- Pairs of a dictionary, with its keys in the order of the dictionary, are all its pairs. -/
theorem eq_of_keys {es fs : List (Janet × Janet)} (hkeys : keys es = keys fs) (hnodup : (keys fs).Nodup)
    (hsub : es ⊆ fs) : es = fs := by
  induction es generalizing fs with
  | nil => exact (List.map_eq_nil_iff.mp hkeys.symm).symm
  | cons e es ih =>
    cases fs with
    | nil => exact absurd hkeys (by simp [keys])
    | cons f fs =>
      obtain ⟨hhead, htail⟩ := List.cons.inj hkeys
      obtain ⟨hf, hnodup⟩ := List.nodup_cons.mp hnodup
      have he : e = f := by
        rcases List.mem_cons.mp (hsub List.mem_cons_self) with he | he
        · exact he
        · exact absurd (hhead ▸ List.mem_map_of_mem (f := Prod.fst) he) hf
      refine congrArg₂ List.cons he (ih htail hnodup fun x hx => ?_)
      rcases List.mem_cons.mp (hsub (List.mem_cons_of_mem _ hx)) with rfl | hmem
      · exact absurd (htail ▸ List.mem_map_of_mem (f := Prod.fst) hx) hf
      · exact hmem

/-- The entries that elements have become, under their names. -/
def Named (ms : List Markup) (es : List (Janet × Janet)) : Prop :=
  List.Forall₂ (fun m e => e.1 = m.nameKey ∧ isNil e.2 = false) ms es

theorem named_keys {ms : List Markup} {es : List (Janet × Janet)}
    (h : List.Forall₂ (fun m e => e.1 = m.nameKey) ms es) : keys es = ms.map Markup.nameKey := by
  induction h with
  | nil => rfl
  | cons hme _ ih => exact congrArg₂ List.cons hme ih

theorem named_values {ms : List Markup} {es : List (Janet × Janet)} (h : Named ms es) :
    ∀ e ∈ es, isNil e.2 = false := by
  induction h with
  | nil => exact fun _ he => absurd he (by simp)
  | cons hme _ ih =>
    rintro e (_ | ⟨_, he⟩)
    · exact hme.2
    · exact ih e he

theorem names_nodup {ms : List Markup} : (ms.map Markup.nameKey).Nodup ↔ (names ms).Nodup := by
  have hmap : ms.map Markup.nameKey = (names ms).map Janet.keyword := by
    rw [names, List.map_map]
    rfl
  rw [hmap]
  exact List.nodup_map_iff fun _ _ h => Janet.keyword.inj h

/-- Elements have entries of their own in what is put together if their names are distinct. -/
theorem entries_iff {Kept : Markup → Janet → Prop} {ms : List Markup} {es : List (Janet × Janet)} (h : Named ms es) :
    Entries Kept ms (putAll [] es) ↔ (names ms).Nodup ∧ List.Forall₂ (fun m e => Kept m e.2) ms es := by
  have hkeys : keys es = ms.map Markup.nameKey := named_keys (h.imp fun _ _ h => h.1)
  have hkeyword : ∀ k ∈ keys es, IsKeyword k := by
    rw [hkeys]
    intro k hk
    obtain ⟨m, _, rfl⟩ := List.mem_map.mp hk
    exact ⟨_, rfl⟩
  have hvalues := named_values h
  have hput (hnodup : (names ms).Nodup) : putAll [] es = es :=
    putAll_nil hvalues ⟨hkeyword, by rw [hkeys]; exact names_nodup.mpr hnodup⟩
  constructor
  · rintro ⟨fs, hsub, hfs⟩
    have hfkeys : keys fs = ms.map Markup.nameKey := named_keys (hfs.imp fun _ _ h => h.1)
    have hnodup : (names ms).Nodup := by
      rw [← names_nodup, ← hfkeys]
      obtain ⟨l, hperm, hl⟩ := hsub
      have hdict := putAll_isDict hkeyword isDict_nil
      exact (hperm.map Prod.fst).nodup_iff.mp (hdict.nodup.sublist (hl.map Prod.fst))
    have heq : fs = es := by
      refine eq_of_keys (hfkeys.trans hkeys.symm) (by rw [hkeys]; exact names_nodup.mpr hnodup) ?_
      rw [hput hnodup] at hsub
      exact hsub.subset
    exact ⟨hnodup, heq ▸ hfs.imp fun _ _ h => h.2⟩
  · rintro ⟨hnodup, hkept⟩
    refine ⟨es, by rw [hput hnodup], List.Forall₂.mp (fun _ _ hname hkept => ⟨hname.1, hkept⟩) h hkept⟩

/-! ### What elements become -/

section built
variable {m : Markup} {v : Janet}

theorem truthy_attribute (m : Markup) (key : String) :
    truthy (get m.attributeStruct (kw key)) = (m.value? key).isSome := by
  rw [get_attribute]
  cases m.value? key <;> rfl

theorem default_attribute (m : Markup) (key : String) :
    default (get m.attributeStruct (kw key)) (str "") = .string (m.value key) := by
  rw [get_attribute, Markup.value]
  cases m.value? key <;> rfl

theorem some_attribute {key : String} (h : (m.value? key).isSome = true) :
    get m.attributeStruct (kw key) = .string (m.value key) := by
  obtain ⟨x, hx⟩ := Option.isSome_iff_exists.mp h
  rw [get_attribute, Markup.value, hx]
  rfl

/-- An element whose required attributes are missing becomes nothing. -/
theorem required {c : Bool} {x : Janet} {e : String} (h : (if c then Except.ok x else .error e) = .ok v) :
    c = true ∧ x = v := by
  split at h
  · exact ⟨‹_›, Except.ok.inj h⟩
  · exact absurd h (by simp)

theorem annotation_built (ht : m.tag = .annot) (hv : m.build = .ok v) :
    member? v = false ∧ get v (kw "direction") = .nil ∧ get v (kw "type") = .nil := by
  obtain ⟨vs, _, h⟩ := build_iff.mp hv
  rw [ht] at h
  replace h : annotationStruct (str "annotation") m.attributeStruct (.array vs) = .ok v := h
  rw [annotationStruct, truthy_attribute, truthy_attribute] at h
  obtain ⟨hsome, rfl⟩ := required h
  rw [Bool.and_eq_true] at hsome
  rw [some_attribute hsome.1, some_attribute hsome.2]
  exact ⟨rfl, rfl, rfl⟩

theorem arg_built (ht : m.tag = .arg) (hv : m.build = .ok v) :
    get v (kw "direction") = .string (m.value "direction") ∧ get v (kw "type") = .string (m.value "type") := by
  obtain ⟨vs, _, h⟩ := build_iff.mp hv
  rw [ht] at h
  replace h : argStruct (str "arg") m.attributeStruct (.array vs) = .ok v := h
  rw [argStruct, truthy_attribute, default_attribute, default_attribute] at h
  obtain ⟨hsome, rfl⟩ := required h
  rw [some_attribute hsome]
  exact ⟨rfl, rfl⟩

/-- A method has its children in three lists. -/
theorem method_built (ht : m.tag = .method) (hv : m.build = .ok v) :
    ∃ vs, Built m.children vs ∧ v = .struct [(m.nameKey,
      .struct [(kw "kind", .symbol (bytesOf "method")),
        (kw "in", filter (fun x => (str "in").sameAtom (get x (kw "direction"))) (.array vs)),
        (kw "out", filter (fun x => (str "out").sameAtom (get x (kw "direction"))) (.array vs)),
        (kw "annotations", filter (fun x => isNil (get x (kw "direction"))) (.array vs))])] := by
  obtain ⟨vs, hvs, h⟩ := build_iff.mp hv
  rw [ht] at h
  replace h : methodStruct (str "method") m.attributeStruct (.array vs) = .ok v := h
  rw [methodStruct, truthy_attribute] at h
  obtain ⟨hsome, rfl⟩ := required h
  rw [some_attribute hsome]
  exact ⟨vs, hvs, rfl⟩

theorem signal_built (ht : m.tag = .signal) (hv : m.build = .ok v) :
    ∃ vs, Built m.children vs ∧ v = .struct [(m.nameKey,
      .struct [(kw "kind", .symbol (bytesOf "signal")),
        (kw "args", filter (fun x => truthy (get x (kw "type"))) (.array vs)),
        (kw "annotations", filter (fun x => isNil (get x (kw "direction"))) (.array vs))])] := by
  obtain ⟨vs, hvs, h⟩ := build_iff.mp hv
  rw [ht] at h
  replace h : signalStruct (str "signal") m.attributeStruct (.array vs) = .ok v := h
  rw [signalStruct, truthy_attribute] at h
  obtain ⟨hsome, rfl⟩ := required h
  rw [some_attribute hsome]
  exact ⟨vs, hvs, rfl⟩

theorem property_built (ht : m.tag = .property) (hv : m.build = .ok v) :
    ∃ vs, v = .struct [(m.nameKey,
      .struct [(kw "kind", .symbol (bytesOf "property")), (kw "type", .string (m.value "type")),
        (kw "access", .string (m.value "access")), (kw "annotations", .array vs)])] := by
  obtain ⟨vs, _, h⟩ := build_iff.mp hv
  rw [ht] at h
  replace h : propertyStruct (str "property") m.attributeStruct (.array vs) = .ok v := h
  rw [propertyStruct, truthy_attribute, truthy_attribute, truthy_attribute] at h
  obtain ⟨hsome, rfl⟩ := required h
  rw [Bool.and_eq_true, Bool.and_eq_true] at hsome
  rw [some_attribute hsome.1.1, some_attribute hsome.1.2, some_attribute hsome.2]
  exact ⟨vs, rfl⟩

theorem interface_built (ht : m.tag = .interface) (hv : m.build = .ok v) :
    ∃ vs, Built m.children vs ∧ v = .struct [(m.nameKey,
      .struct ((kw "members", merge (vs.filter fun x => member? x = true)) ::
        present "annotations" (vs.filter fun x => member? x = false)))] := by
  obtain ⟨vs, hvs, h⟩ := build_iff.mp hv
  rw [ht] at h
  replace h : interfaceStruct (str "interface") m.attributeStruct (.array vs) = .ok v := h
  rw [interfaceStruct, truthy_attribute] at h
  obtain ⟨hsome, rfl⟩ := required h
  have hpresent := literal_present [("members", merge (vs.filter fun x => member? x = true))] "annotations"
    (by simp) (by simp [isNil, merge]) (vs.filter fun x => member? x = false)
  rw [some_attribute hsome, groupBy, elements_group]
  exact ⟨vs, hvs, congrArg (fun w => literal [(m.nameKey, w)]) hpresent⟩

theorem node_built (ht : m.tag = .node) (hv : m.build = .ok v) :
    ∃ vs, Built m.children vs ∧ v = nodeOf (.string (m.value "name"))
      (merge (vs.filter fun x => interface? x = true)) (vs.filter fun x => interface? x = false) := by
  obtain ⟨vs, hvs, h⟩ := build_iff.mp hv
  rw [ht] at h
  replace h : nodeStruct (str "node") m.attributeStruct (.array vs) = .ok v := h
  rw [nodeStruct, default_attribute, groupBy, elements_group] at h
  refine ⟨vs, hvs, (Except.ok.inj h).symm.trans ?_⟩
  exact literal_present [("path", .string (m.value "name")),
    ("interfaces", merge (vs.filter fun x => interface? x = true))] "children"
    (by simp) (by simp [isNil, merge]) (vs.filter fun x => interface? x = false)

end built

/-! ### Arguments -/

def saysDirection (d : String) (a : Markup) : Bool := a.value? "direction" = some (bytesOf d)

theorem splits_length {as ins outs : List Markup} (h : Splits as ins outs) :
    ins.length + outs.length = as.length := by
  induction h with
  | nil => rfl
  | input _ _ ih => rw [List.length_cons, List.length_cons]; omega
  | output _ _ _ ih => rw [List.length_cons, List.length_cons]; omega

theorem in_ne_out : some (bytesOf "in") ≠ some (bytesOf "out") := by decide

theorem splits_directed {as : List Markup}
    (h : ∀ a ∈ as, a.value? "direction" = some (bytesOf "in") ∨ a.value? "direction" = some (bytesOf "out")) :
    Splits as (as.filter (saysDirection "in")) (as.filter (saysDirection "out")) := by
  induction as with
  | nil => exact .nil
  | cons a as ih =>
    have htail := ih fun x hx => h x (List.mem_cons_of_mem _ hx)
    rcases h a List.mem_cons_self with ha | ha
    · rw [List.filter_cons_of_pos (by simpa [saysDirection] using ha),
        List.filter_cons_of_neg (by simpa [saysDirection, ha] using in_ne_out)]
      exact .input (by rw [ha]; exact in_ne_out) htail
    · rw [List.filter_cons_of_neg (by simpa [saysDirection, ha] using in_ne_out.symm),
        List.filter_cons_of_pos (by simpa [saysDirection] using ha)]
      exact .output (by rw [ha]; simp) (by rw [ha]; exact in_ne_out.symm) htail

/-- Two lists that hold as much as there is miss nothing. -/
theorem directed_of_length {as : List Markup}
    (h : as.length ≤ (as.filter (saysDirection "in")).length + (as.filter (saysDirection "out")).length) :
    ∀ a ∈ as, a.value? "direction" = some (bytesOf "in") ∨ a.value? "direction" = some (bytesOf "out") := by
  have hle : ∀ xs : List Markup,
      (xs.filter (saysDirection "in")).length + (xs.filter (saysDirection "out")).length ≤ xs.length := by
    intro xs
    induction xs with
    | nil => exact Nat.le_refl _
    | cons a xs ih =>
      rw [List.filter_cons, List.filter_cons]
      by_cases hin : saysDirection "in" a = true
      · have hout : ¬ saysDirection "out" a = true := by
          simp only [saysDirection, decide_eq_true_eq] at hin ⊢
          rw [hin]
          exact in_ne_out
        rw [if_pos hin, if_neg hout]
        simp only [List.length_cons]
        omega
      · rw [if_neg hin]
        split <;> simp only [List.length_cons] <;> omega
  induction as with
  | nil => exact fun a ha => absurd ha (by simp)
  | cons a as ih =>
    have hrest := hle as
    have hone := hle [a]
    rw [← List.singleton_append, List.filter_append, List.filter_append] at h
    simp only [List.length_append] at h
    have htail := ih (by simp only [List.length_singleton] at h hone; omega)
    rintro x (_ | ⟨_, hx⟩)
    · by_contra hno
      rw [not_or] at hno
      rw [List.filter_cons_of_neg (by simpa [saysDirection] using hno.1),
        List.filter_cons_of_neg (by simpa [saysDirection] using hno.2)] at h
      simp only [List.filter_nil, List.length_nil, List.length_singleton] at h
      omega
    · exact htail x hx

section arguments
variable {m : Markup} {vs : List Janet}

/-- The values that go to a list of a method are those of the arguments that say so. -/
theorem side_built (hparts : ∀ c ∈ m.children, c.tag = .arg ∨ c.tag = .annot) (hvs : Built m.children vs)
    {d : String} (hd : bytesOf d ≠ []) :
    Built (m.args.filter (saysDirection d)) (vs.filter fun x => (str d).sameAtom (get x (kw "direction"))) := by
  rw [Markup.args, List.filter_filter]
  refine forall₂_filter hvs fun c v hc hv => ?_
  rcases hparts c hc with ht | ht
  · rw [(arg_built ht hv).1, saysDirection, Markup.value, ht]
    cases hdir : c.value? "direction" with
    | none => simp [str, Janet.sameAtom, hd]
    | some x => simp [str, Janet.sameAtom, eq_comm]
  · rw [(annotation_built ht hv).2.1, ht]
    simp [str, Janet.sameAtom]

theorem args_built (hparts : ∀ c ∈ m.children, c.tag = .arg ∨ c.tag = .annot) (hvs : Built m.children vs) :
    Built m.args (vs.filter fun x => truthy (get x (kw "type"))) := by
  refine forall₂_filter hvs fun c v hc hv => ?_
  rcases hparts c hc with ht | ht
  · rw [(arg_built ht hv).2, ht]
    rfl
  · rw [(annotation_built ht hv).2.2, ht]
    rfl

/-- The lists of a method hold its arguments if each of them gives its direction. -/
theorem method_iff {v : Janet} (ht : m.tag = .method) (hparts : ∀ c ∈ m.children, c.tag = .arg ∨ c.tag = .annot)
    (hv : m.build = .ok v) : ∃ w, v = .struct [(m.nameKey, w)] ∧ member? v = true ∧ isNil w = false ∧
      (MethodKept m w ↔ Directed m) := by
  obtain ⟨vs, hvs, rfl⟩ := method_built ht hv
  have hins := side_built hparts hvs (d := "in") (by decide)
  have houts := side_built hparts hvs (d := "out") (by decide)
  refine ⟨_, rfl, rfl, rfl, ?_, ?_⟩
  · rintro ⟨-, ins, outs, vs', us', hsplit, hvs', hin, hus', hout, -⟩
    obtain rfl := Janet.array.inj hin
    obtain rfl := Janet.array.inj hout
    refine directed_of_length ?_
    rw [← splits_length hsplit, hvs'.length_eq, hus'.length_eq, hins.length_eq, houts.length_eq]
    exact Nat.le_refl _
  · intro hdirected
    refine ⟨rfl, _, _, _, _, splits_directed hdirected, hins, rfl, houts, rfl, ?_⟩
    -- the types of the inputs, one by one
    have htypes : ∀ {as : List Markup} {us : List Janet}, (∀ a ∈ as, a.tag = .arg) → Built as us →
        us.map (fun arg => (janetBytesView (get arg (kw "type"))).getD []) = as.map fun a => a.value "type" := by
      intro as us has hus
      induction hus with
      | nil => rfl
      | @cons a u as us hau _ ih =>
        rw [List.map_cons, List.map_cons, (arg_built (has a List.mem_cons_self) hau).2,
          ih fun x hx => has x (List.mem_cons_of_mem _ hx)]
        rfl
    refine congrArg List.flatten (htypes (fun a ha => ?_) hins)
    simpa using (List.mem_filter.mp (List.mem_filter.mp ha).1).2

theorem signal_kept {v : Janet} (ht : m.tag = .signal) (hparts : ∀ c ∈ m.children, c.tag = .arg ∨ c.tag = .annot)
    (hv : m.build = .ok v) : ∃ w, v = .struct [(m.nameKey, w)] ∧ member? v = true ∧ isNil w = false ∧
      SignalKept m w := by
  obtain ⟨vs, hvs, rfl⟩ := signal_built ht hv
  exact ⟨_, rfl, rfl, rfl, rfl, _, args_built hparts hvs, rfl⟩

theorem property_kept {v : Janet} (ht : m.tag = .property) (hv : m.build = .ok v) :
    ∃ w, v = .struct [(m.nameKey, w)] ∧ member? v = true ∧ isNil w = false ∧ PropertyKept m w := by
  obtain ⟨vs, rfl⟩ := property_built ht hv
  exact ⟨_, rfl, rfl, rfl, rfl, rfl, rfl⟩

end arguments

/-! ### Interfaces -/

theorem belongIn_iff {t : Tag} {ms : List Markup} :
    BelongIn t ms ↔ ∀ c ∈ ms, c.tag ∈ t.children ∧ c.Belongs := by
  induction ms with
  | nil => exact ⟨fun _ c hc => absurd hc (by simp), fun _ => trivial⟩
  | cons m ms ih =>
    rw [List.forall_mem_cons, BelongIn, ih, and_assoc]

theorem children_belong {m : Markup} (hm : m.Belongs) : ∀ c ∈ m.children, c.tag ∈ m.tag.children ∧ c.Belongs :=
  belongIn_iff.mp ((belongs_iff m).mp hm).2

theorem parts_of {m : Markup} (ht : m.tag.children = [.arg, .annot]) (hm : m.Belongs) :
    ∀ c ∈ m.children, c.tag = .arg ∨ c.tag = .annot := by
  intro c hc
  have hmem := (children_belong hm c hc).1
  rw [ht] at hmem
  simpa using hmem

/-- A member is kept unless it is a method and one of its arguments is lost. -/
theorem member_iff {m : Markup} {v : Janet} (hm : m.Belongs)
    (ht : m.tag = .method ∨ m.tag = .signal ∨ m.tag = .property) (hv : m.build = .ok v) :
    ∃ w, v = .struct [(m.nameKey, w)] ∧ member? v = true ∧ isNil w = false ∧
      (MemberKept m w ↔ (m.tag = .method → Directed m)) := by
  rcases ht with ht | ht | ht
  · obtain ⟨w, hw, hmember, hnil, hiff⟩ := method_iff ht (parts_of (by rw [ht]; rfl) hm) hv
    refine ⟨w, hw, hmember, hnil, ?_⟩
    rw [MemberKept, ht, hiff]
    exact ⟨fun h _ => h, fun h => h rfl⟩
  · obtain ⟨w, hw, hmember, hnil, hkept⟩ := signal_kept ht (parts_of (by rw [ht]; rfl) hm) hv
    refine ⟨w, hw, hmember, hnil, ?_⟩
    rw [MemberKept, ht]
    exact ⟨fun _ h => absurd h (by simp), fun _ => hkept⟩
  · obtain ⟨w, hw, hmember, hnil, hkept⟩ := property_kept ht hv
    refine ⟨w, hw, hmember, hnil, ?_⟩
    rw [MemberKept, ht]
    exact ⟨fun _ h => absurd h (by simp), fun _ => hkept⟩

theorem interface_iff {m : Markup} {v : Janet} (ht : m.tag = .interface) (hm : m.Belongs) (hv : m.build = .ok v) :
    ∃ w, v = .struct [(m.nameKey, w)] ∧ isNil w = false ∧ truthy w = true ∧ (InterfaceKept m w ↔ InterfaceDistinct m) := by
  obtain ⟨vs, hvs, rfl⟩ := interface_built ht hv
  have hchildren := children_belong hm
  rw [ht] at hchildren
  have hmembers : Built m.members (vs.filter fun x => member? x = true) := by
    refine forall₂_filter hvs fun c v hc hv => ?_
    by_cases hcm : c.tag = .method ∨ c.tag = .signal ∨ c.tag = .property
    · obtain ⟨w, -, hmember, -⟩ := member_iff (hchildren c hc).2 hcm hv
      simp [hmember, hcm]
    · have hann : c.tag = .annot := by
        have hmem := (hchildren c hc).1
        simp only [Tag.children, List.mem_cons, List.not_mem_nil, or_false] at hmem
        tauto
      simp [(annotation_built hann hv).1, hcm]
  have hentries := forall₂_made (fun e => Janet.struct [e])
    (S := fun c e => (e.1 = c.nameKey ∧ isNil e.2 = false) ∧ (MemberKept c e.2 ↔ (c.tag = .method → Directed c))) hmembers
    (fun c v hc hv => by
      obtain ⟨hc, hcm⟩ := List.mem_filter.mp hc
      obtain ⟨w, rfl, -, hnil, hiff⟩ := member_iff (hchildren c hc).2 (by simpa using hcm) hv
      exact ⟨(c.nameKey, w), rfl, ⟨rfl, hnil⟩, hiff⟩)
  obtain ⟨es, hes, hnamed⟩ := hentries
  refine ⟨_, rfl, rfl, rfl, ?_⟩
  have hpairs : pairs (get (.struct ((kw "members", merge (vs.filter fun x => member? x = true)) ::
      present "annotations" (vs.filter fun x => member? x = false))) (kw "members")) = putAll [] es := by
    rw [hes, merge_singles]
    rfl
  rw [InterfaceKept, hpairs, entries_iff (hnamed.imp fun _ _ h => h.1), forall₂_iff hnamed fun _ _ _ h => h.2]
  exact ⟨fun h => ⟨h.2, h.1⟩, fun h => ⟨h.members, h.directed⟩⟩

/-! ### Nodes -/

/-- A node, and an interface with the name `path`, have a path. -/
theorem node_interface? {m : Markup} {v : Janet} (ht : m.tag = .node) (hv : m.build = .ok v) : interface? v = false := by
  obtain ⟨vs, _, rfl⟩ := node_built ht hv
  rfl

theorem interface_interface? {m : Markup} {w : Janet} (hw : truthy w = true) :
    interface? (.struct [(m.nameKey, w)]) = decide (m.value "name" ≠ bytesOf "path") := by
  have hfind := find_cons (isKeyword_kw "path") (k := m.nameKey) (v := w) []
  show (!truthy (find (kw "path") [(m.nameKey, w)])) = _
  by_cases h : m.value "name" = bytesOf "path"
  · rw [hfind.1 (congrArg Janet.keyword h.symm), hw]
    simp [h]
  · rw [hfind.2 fun hk => h (Janet.keyword.inj hk).symm]
    simp [h, find, truthy]

/-- The interfaces that are not taken for nodes. -/
def Markup.found (m : Markup) : List Markup := m.interfaces.filter fun i => i.value "name" ≠ bytesOf "path"

theorem found_names (m : Markup) : bytesOf "path" ∉ names m.found := by
  intro h
  obtain ⟨i, hi, hpath⟩ := List.mem_map.mp h
  have hne := (List.mem_filter.mp hi).2
  simp [hpath] at hne

theorem found_all {m : Markup} (h : bytesOf "path" ∉ names m.interfaces) : m.found = m.interfaces := by
  refine List.filter_eq_self.mpr fun i hi => ?_
  exact decide_eq_true fun hpath => h (hpath ▸ List.mem_map_of_mem hi)

section node
variable {m : Markup} {v : Janet}

theorem node_children (ht : m.tag = .node) (hm : m.Belongs) :
    ∀ c ∈ m.children, (c.tag = .node ∨ c.tag = .interface) ∧ c.Belongs := by
  intro c hc
  obtain ⟨htag, hbelongs⟩ := children_belong hm c hc
  rw [ht] at htag
  exact ⟨by simpa [Tag.children] using htag, hbelongs⟩

/-- Whether a child is filed as an interface. -/
theorem filed (ht : m.tag = .node) (hm : m.Belongs) {c : Markup} {u : Janet} (hc : c ∈ m.children)
    (hu : c.build = .ok u) : interface? u = decide (c.tag = .interface ∧ c.value "name" ≠ bytesOf "path") := by
  obtain ⟨htag | htag, hbelongs⟩ := node_children ht hm c hc
  · rw [node_interface? htag hu, htag]
    simp
  · obtain ⟨w, rfl, -, htruthy, -⟩ := interface_iff htag hbelongs hu
    rw [interface_interface? htruthy, htag]
    simp

/-- The interfaces of a node are those that have been found. -/
theorem node_entries (ht : m.tag = .node) (hm : m.Belongs) (hv : m.build = .ok v) :
    ∃ es, pairs (get v (kw "interfaces")) = putAll [] es ∧
      List.Forall₂ (fun i e => (e.1 = i.nameKey ∧ isNil e.2 = false) ∧ (InterfaceKept i e.2 ↔ InterfaceDistinct i))
        m.found es := by
  obtain ⟨vs, hvs, rfl⟩ := node_built ht hv
  have hfound : Built m.found (vs.filter fun x => interface? x = true) := by
    rw [Markup.found, Markup.interfaces, List.filter_filter]
    refine forall₂_filter hvs fun c u hc hu => ?_
    rw [filed ht hm hc hu]
    simp [Bool.and_comm]
  obtain ⟨es, hes, hnamed⟩ := forall₂_made (fun e => Janet.struct [e])
    (S := fun i e => (e.1 = i.nameKey ∧ isNil e.2 = false) ∧ (InterfaceKept i e.2 ↔ InterfaceDistinct i)) hfound
    (fun i u hi hu => by
      obtain ⟨hi, hpath⟩ := List.mem_filter.mp hi
      obtain ⟨hi, htag⟩ := List.mem_filter.mp hi
      obtain ⟨w, rfl, hnil, -, hiff⟩ := interface_iff (by simpa using htag) (node_children ht hm i hi).2 hu
      exact ⟨(i.nameKey, w), rfl, ⟨rfl, hnil⟩, hiff⟩)
  refine ⟨es, ?_, hnamed⟩
  show pairs (merge (vs.filter fun x => interface? x = true)) = _
  rw [hes, merge_singles]
  rfl

/-- The child nodes of a node, if no interface is taken for one. -/
theorem node_nodes (ht : m.tag = .node) (hm : m.Belongs) (hv : m.build = .ok v)
    (hpath : bytesOf "path" ∉ names m.interfaces) : Built m.nodes (elements (get v (kw "children"))) := by
  obtain ⟨vs, hvs, rfl⟩ := node_built ht hv
  rw [nodeOf_children, elements_group]
  refine forall₂_filter hvs fun c u hc hu => ?_
  rw [filed ht hm hc hu]
  obtain ⟨htag | htag, -⟩ := node_children ht hm c hc
  · simp [htag]
  · have hne : c.value "name" ≠ bytesOf "path" := fun h =>
      hpath (h ▸ List.mem_map_of_mem (List.mem_filter.mpr ⟨hc, by simpa using htag⟩))
    simp [htag, hne]

/-- An interface with the name `path` has no entry. -/
theorem entries_path (ht : m.tag = .node) (hm : m.Belongs) (hv : m.build = .ok v)
    (h : Entries InterfaceKept m.interfaces (pairs (get v (kw "interfaces")))) :
    bytesOf "path" ∉ names m.interfaces := by
  obtain ⟨es, hpairs, hnamed⟩ := node_entries ht hm hv
  obtain ⟨fs, hsub, hfs⟩ := h
  rw [hpairs] at hsub
  have hfkeys : keys fs = m.interfaces.map Markup.nameKey := named_keys (hfs.imp fun _ _ h => h.1)
  have hekeys : keys es = m.found.map Markup.nameKey := named_keys (hnamed.imp fun _ _ h => h.1.1)
  intro hmem
  obtain ⟨i, hi, hpath⟩ := List.mem_map.mp hmem
  have hkey : kw "path" ∈ keys fs := by
    rw [hfkeys]
    exact List.mem_map.mpr ⟨i, hi, congrArg Janet.keyword hpath⟩
  obtain ⟨f, hf, hfkey⟩ := List.mem_map.mp hkey
  have hput : kw "path" ∈ keys (putAll [] es) := hfkey ▸ List.mem_map_of_mem (hsub.subset hf)
  have hkeywords : ∀ k ∈ keys es, IsKeyword k := by
    rw [hekeys]
    intro k hk
    obtain ⟨j, _, rfl⟩ := List.mem_map.mp hk
    exact ⟨_, rfl⟩
  rcases putAll_keys hkeywords hput with hk | hk
  · exact absurd hk (by simp [keys])
  · rw [hekeys] at hk
    obtain ⟨j, hj, hjkey⟩ := List.mem_map.mp hk
    exact found_names m (Janet.keyword.inj hjkey ▸ List.mem_map_of_mem hj)

end node

theorem sizeOf_child {m c : Markup} (h : c ∈ m.children) : sizeOf c < sizeOf m := by
  cases m with
  | empty => exact absurd h (by simp [Markup.children])
  | paired t as w ms l =>
    have hlt := List.sizeOf_lt_of_mem h
    simp only [Markup.paired.sizeOf_spec]
    simp only [Markup.children] at hlt
    omega

/-- A node keeps all that it says if its names are distinct and its directions given. -/
theorem keeps_iff (m : Markup) {v : Janet} (ht : m.tag = .node) (hm : m.Belongs) (hv : m.build = .ok v) :
    Keeps m v ↔ Distinct m := by
  have hnodes (hpath : bytesOf "path" ∉ names m.interfaces) :
      List.Forall₂ Keeps m.nodes (elements (get v (kw "children"))) ↔ ∀ n ∈ m.nodes, Distinct n := by
    refine forall₂_iff (node_nodes ht hm hv hpath) fun n u hn hu => ?_
    obtain ⟨hmem, htag⟩ := List.mem_filter.mp hn
    have hlt := sizeOf_child hmem
    exact keeps_iff n (by simpa using htag) (node_children ht hm n hmem).2 hu
  have hinterfaces (hpath : bytesOf "path" ∉ names m.interfaces) :
      Entries InterfaceKept m.interfaces (pairs (get v (kw "interfaces"))) ↔
        (names m.interfaces).Nodup ∧ ∀ i ∈ m.interfaces, InterfaceDistinct i := by
    obtain ⟨es, hpairs, hnamed⟩ := node_entries ht hm hv
    rw [found_all hpath] at hnamed
    rw [hpairs, entries_iff (hnamed.imp fun _ _ h => h.1), forall₂_iff hnamed fun _ _ _ h => h.2]
  constructor
  · rintro ⟨hentries, hchildren⟩
    have hpath := entries_path ht hm hv hentries
    obtain ⟨hnodup, hdistinct⟩ := (hinterfaces hpath).mp hentries
    exact .node hnodup hpath hdistinct ((hnodes hpath).mp hchildren)
  · rintro ⟨hnodup, hpath, hdistinct, hbelow⟩
    exact .node ((hinterfaces hpath).mpr ⟨hnodup, hdistinct⟩) ((hnodes hpath).mpr hbelow)
termination_by sizeOf m

/-! ### Documents -/

/-- `parse-xml` hands on what a node has, beside its path. -/
theorem spec_keeps {m : Markup} {v : Janet} (ht : m.tag = .node) (hv : m.build = .ok v) (destination path : Janet) :
    Keeps m (spec v destination path) ↔ Keeps m v := by
  obtain ⟨vs, _, rfl⟩ := node_built ht hv
  rw [spec_nodeOf rfl]
  have hchildren : get (.struct ((kw "destination", default destination (str "")) ::
      (kw "path", default path (str "/")) :: (kw "interfaces", merge (vs.filter fun x => interface? x = true)) ::
      present "children" (vs.filter fun x => interface? x = false))) (kw "children") =
      group (vs.filter fun x => interface? x = false) := by
    cases vs.filter (fun x => interface? x = false) <;> rfl
  constructor
  · rintro ⟨hinterfaces, hnodes⟩
    rw [hchildren, ← nodeOf_children] at hnodes
    exact .node hinterfaces hnodes
  · rintro ⟨hinterfaces, hnodes⟩
    rw [nodeOf_children, ← hchildren] at hnodes
    exact .node hinterfaces hnodes

theorem document_keeps_iff (d : Document) {destination path x : Janet}
    (h : parseXml d.text destination path = .ok x) : Keeps d.root x ↔ Distinct d.root := by
  rw [parse_document] at h
  cases hv : d.root.build with
  | error e => rw [hv] at h; exact absurd h (by simp [Except.map])
  | ok v =>
    rw [hv] at h
    rw [← Except.ok.inj h]
    exact (spec_keeps d.isNode hv destination path).trans (keeps_iff d.root d.isNode d.belongs hv)

/-- A node with one interface, `a.b`. -/
def oneInterface (members : List Markup) : Markup :=
  .paired .node [] noSpace [.paired .interface [written "name" "a.b"] noSpace members noSpace] noSpace

theorem oneInterface_belongs {members : List Markup} (h : BelongIn .interface members) :
    (oneInterface members).Belongs := by
  refine ⟨fun _ ha => absurd ha (by simp), by simp [Markup.tag, Tag.children], ⟨?_, h⟩, trivial⟩
  intro a ha
  rw [List.mem_singleton.mp ha]
  decide

/-- What is returned for a node with one interface, with these members. -/
def oneSpec (members : List (Janet × Janet)) : Janet :=
  .struct [(kw "destination", str ""), (kw "path", str "/"),
    (kw "interfaces", .table [(kw "a.b", .struct [(kw "members", .table members)])])]

/-- Whatever is accepted is a document, and `parse-xml` loses something of it unless the direction of
    each argument of a method is given, members of an interface have distinct names, and so have
    interfaces of a node, none of which is `path`. -/
theorem introspection_keeps_iff {input : List UInt8} {destination path x : Janet}
    (h : parseXml input destination path = .ok x) (hx : x ≠ .nil) :
    (∃ d : Document, input = d.text) ∧ ∀ d : Document, input = d.text → (Keeps d.root x ↔ Distinct d.root) :=
  ⟨parse_ok h hx, fun d hd => document_keeps_iff d (hd ▸ h)⟩

/-- An argument that is an input. -/
def inputDocument : Document where
  doctype := none
  root := oneInterface [.paired .method [written "name" "m"] noSpace
    [.empty .arg [written "type" "i", written "direction" "in"] noSpace] noSpace]
  isNode := rfl
  belongs := oneInterface_belongs
    ⟨by decide, ⟨by simp [AttributesBelong, written, Tag.attrs], by decide,
      by simp [Markup.Belongs, AttributesBelong, written, Tag.attrs], trivial⟩, trivial⟩

def inputSpec : Janet :=
  oneSpec [(kw "m", .struct [(kw "kind", .symbol (bytesOf "method")),
    (kw "in", .array [.struct [(kw "name", str ""), (kw "type", str "i"), (kw "direction", str "in"),
      (kw "annotations", .array [])]]),
    (kw "out", .array []), (kw "annotations", .array [])])]

theorem introspection_keeps_iff_input :
    inputDocument.text = bytesOf ("<node><interface name=\"a.b\"><method name=\"m\">" ++
      "<arg type=\"i\" direction=\"in\"/></method></interface></node>") ∧
    (Keeps inputDocument.root inputSpec ↔ Distinct inputDocument.root) := by
  have hparse : parseXml inputDocument.text .nil .nil = .ok inputSpec := (parse_document inputDocument .nil .nil).trans rfl
  exact ⟨rfl, (introspection_keeps_iff hparse (by simp [inputSpec, oneSpec])).2 inputDocument rfl⟩

/-- An argument that says nothing of its direction. -/
def undirected : Document where
  doctype := none
  root := oneInterface [.paired .method [written "name" "m"] noSpace
    [.empty .arg [written "type" "i"] noSpace] noSpace]
  isNode := rfl
  belongs := oneInterface_belongs
    ⟨by decide, ⟨by simp [AttributesBelong, written, Tag.attrs], by decide,
      by simp [Markup.Belongs, AttributesBelong, written, Tag.attrs], trivial⟩, trivial⟩

/-- A method and a signal of one name. -/
def shared : Document where
  doctype := none
  root := oneInterface [.empty .method [written "name" "m"] noSpace,
    .empty .signal [written "name" "m"] noSpace]
  isNode := rfl
  belongs := oneInterface_belongs
    ⟨by decide, by simp [Markup.Belongs, AttributesBelong, written, Tag.attrs], by decide,
      by simp [Markup.Belongs, AttributesBelong, written, Tag.attrs], trivial⟩

def undirectedSpec : Janet :=
  oneSpec [(kw "m", .struct [(kw "kind", .symbol (bytesOf "method")), (kw "in", .array []), (kw "out", .array []),
    (kw "annotations", .array [])])]

def sharedSpec : Janet :=
  oneSpec [(kw "m", .struct [(kw "kind", .symbol (bytesOf "signal")), (kw "args", .array []),
    (kw "annotations", .array [])])]

theorem undirected_lost :
    (undirected.text = bytesOf ("<node><interface name=\"a.b\"><method name=\"m\">" ++
        "<arg type=\"i\"/></method></interface></node>") ∧
      parseXml undirected.text .nil .nil = .ok undirectedSpec ∧ ¬ Keeps undirected.root undirectedSpec) ∧
    (shared.text = bytesOf ("<node><interface name=\"a.b\">" ++
        "<method name=\"m\"/><signal name=\"m\"/></interface></node>") ∧
      parseXml shared.text .nil .nil = .ok sharedSpec ∧ ¬ Keeps shared.root sharedSpec) := by
  have hundirected : parseXml undirected.text .nil .nil = .ok undirectedSpec :=
    (parse_document undirected .nil .nil).trans rfl
  have hshared : parseXml shared.text .nil .nil = .ok sharedSpec := (parse_document shared .nil .nil).trans rfl
  refine ⟨⟨rfl, hundirected, fun hkeeps => ?_⟩, rfl, hshared, fun hkeeps => ?_⟩
  · obtain ⟨_, _, hinterfaces, _⟩ := (document_keeps_iff undirected hundirected).mp hkeeps
    have hdirected := (hinterfaces _ List.mem_cons_self).directed _ List.mem_cons_self rfl _ List.mem_cons_self
    exact absurd hdirected (by decide)
  · obtain ⟨_, _, hinterfaces, _⟩ := (document_keeps_iff shared hshared).mp hkeeps
    exact absurd (hinterfaces _ List.mem_cons_self).members (by decide)

end JanetSdbus.Introspect
