import JanetSdbus.Message.Brackets
import JanetSdbus.Message.Steps

/-! The signature walker agrees with the grammar.

    `Walks f v` is the specification of `append_complete_type` on the value `v`: on a string that
    begins with a complete type `t` it succeeds if `v` conforms to `t`, leaving the cursor on the
    last character of `t` and having made the calls of the reference encoding; and it succeeds only
    on such a string. Each container branch meets it if the call-backs do on the elements
    (`appendBranch_walks`), so the walker meets it by induction on the depth of the value
    (`appendCompleteType_walks`). -/

namespace JanetSdbus.Message
open DBus Schemes.CMemory

/-- sd-bus refuses a container whose contents do not fit its kind, and nothing else. -/
def Accepts (sd : SdBus) : Prop :=
  ∀ hist c, sd hist c < 0 ↔ ∃ k s, c = .openContainer k s ∧ ¬ Fits k s

/-- The calls `cs` were made, and whatever was in memory still is. -/
structure Done (st st' : AppendState) (cs : List Call) : Prop where
  calls_eq : st'.calls = st.calls ++ cs
  mem : Extends st.mem st'.mem

variable {rt : Runtime} {sd : SdBus} {st st' st₁ st₂ : AppendState} {p q : Ptr} {s r : List Char}

theorem Done.refl (st : AppendState) : Done st st [] :=
  ⟨(List.append_nil _).symm, Extends.refl _⟩

theorem Done.trans {cs ds : List Call} (h₁ : Done st st₁ cs) (h₂ : Done st₁ st₂ ds) :
    Done st st₂ (cs ++ ds) :=
  ⟨by rw [h₂.calls_eq, h₁.calls_eq, List.append_assoc], h₁.mem.trans h₂.mem⟩

theorem Accepts.open_iff (hsd : Accepts sd) {hist : List Call} {k : Container} :
    ¬ sd hist (.openContainer k s) < 0 ↔ Fits k s := by
  rw [hsd]
  constructor
  · intro h
    by_contra hno
    exact h ⟨k, s, rfl, hno⟩
  · rintro h ⟨k', s', heq, hno⟩
    obtain ⟨rfl, rfl⟩ := Call.openContainer.inj heq
    exact hno h

theorem Accepts.other (hsd : Accepts sd) {hist : List Call} {c : Call}
    (hc : ∀ k s, c ≠ .openContainer k s) : ¬ sd hist c < 0 := by
  rw [hsd]
  rintro ⟨k, s, heq, _⟩
  exact hc k s heq

theorem basicCall_ne (x : Basic) (k : Container) (s : List Char) : basicCall x ≠ .openContainer k s := by
  cases x <;> simp [basicCall]

theorem Accepts.open_ok (hsd : Accepts sd) {k : Container} (hfit : Fits k s) (rt : Runtime)
    (st : AppendState) : ∃ st', callSdBusFunc rt sd (.openContainer k s) st = .ok () st' ∧
      Done st st' [.openContainer k s] :=
  ⟨_, run_call.mpr ⟨hsd.open_iff.mpr hfit, rfl⟩, rfl, Extends.refl _⟩

theorem Accepts.call_ok (hsd : Accepts sd) {c : Call} (hc : ∀ k s, c ≠ .openContainer k s)
    (rt : Runtime) (st : AppendState) :
    ∃ st', callSdBusFunc rt sd c st = .ok () st' ∧ Done st st' [c] :=
  ⟨_, run_call.mpr ⟨hsd.other hc, rfl⟩, rfl, Extends.refl _⟩

theorem call_done {c : Call} (h : callSdBusFunc rt sd c st = .ok () st') :
    ¬ sd st.calls c < 0 ∧ Done st st' [c] := by
  obtain ⟨hok, rfl⟩ := run_call.mp h
  exact ⟨hok, rfl, Extends.refl _⟩

theorem appendBasicType_ok (hsd : Accepts sd) {c : Code} {arg : Janet} {x : Basic}
    (hc : st.mem.read p = some c.char) (hx : convert rt c arg = some x) :
    ∃ st', appendBasicType rt sd p arg st = .ok () st' ∧ Done st st' [basicCall x] :=
  ⟨_, (run_appendBasicType hc).mpr ⟨x, hx, hsd.other (basicCall_ne x), rfl⟩, rfl, Extends.refl _⟩

theorem appendBasicType_done {c : Code} {arg : Janet} (hc : st.mem.read p = some c.char)
    (h : appendBasicType rt sd p arg st = .ok () st') :
    ∃ x, convert rt c arg = some x ∧ Done st st' [basicCall x] := by
  obtain ⟨x, hx, _, rfl⟩ := (run_appendBasicType hc).mp h
  exact ⟨x, hx, rfl, Extends.refl _⟩

/-- What `append_complete_type` has to do for the value `v`. -/
structure Walks (rt : Runtime) (f : Ptr → Janet → Append Ptr) (v : Janet) : Prop where
  complete : ∀ {st p t r i}, Str st.mem p (t.render ++ r) → denote rt t v = some i →
    ∃ st', f p v st = .ok (p.add (t.render.length - 1)) st' ∧ Done st st' (calls i)
  sound : ∀ {st st' p q s}, Str st.mem p s → s ≠ [] → f p v st = .ok q st' →
    ∃ t r i, s = t.render ++ r ∧ denote rt t v = some i

section walks
variable {f : Ptr → Janet → Append Ptr} {v : Janet}

/-- What a success tells. -/
theorem Walks.result (h : Walks rt f v) (hs : Str st.mem p s) (hne : s ≠ [])
    (hf : f p v st = .ok q st') : ∃ t r i, s = t.render ++ r ∧ denote rt t v = some i ∧
      q = p.add (t.render.length - 1) ∧ Done st st' (calls i) := by
  obtain ⟨t, r, i, rfl, hi⟩ := h.sound hs hne hf
  obtain ⟨st₁, hrun, hdone⟩ := h.complete hs hi
  obtain ⟨rfl, rfl⟩ := EStateM.Result.ok.inj (hrun.symm.trans hf)
  exact ⟨t, r, i, rfl, hi, rfl, hdone⟩

/-- The same, where the type is known. -/
theorem Walks.exact {t : Ty} (h : Walks rt f v) (hs : Str st.mem p (t.render ++ r))
    (hf : f p v st = .ok q st') :
    ∃ i, denote rt t v = some i ∧ q = p.add (t.render.length - 1) ∧ Done st st' (calls i) := by
  obtain ⟨c, w, hc, _⟩ := t.render_head
  obtain ⟨u, r', i, heq, hi, hq, hdone⟩ := h.result hs (by rw [hc]; simp) hf
  obtain ⟨rfl, rfl⟩ := render_append_inj heq
  exact ⟨i, hi, hq, hdone⟩

end walks

/-! ### Loops -/

section loops
variable {rec : Ptr → Janet → Append Ptr}

theorem appendElements_complete {t : Ty} : ∀ {xs : List Janet} {is : List Item} {st : AppendState},
    (∀ x ∈ xs, Walks rt rec x) → Str st.mem p t.render → denoteEach rt t xs = some is →
    ∃ st', appendElements rec p xs st = .ok () st' ∧ Done st st' (callsAll is)
  | [], is, st, _, _, h => by
    rw [denoteEach] at h
    obtain rfl := Option.some.inj h
    exact ⟨st, by rw [appendElements]; exact run_pure.mpr ⟨rfl, rfl⟩, by rw [callsAll]; exact Done.refl st⟩
  | x :: xs, is, st, hrec, hs, h => by
    rw [denoteEach] at h
    obtain ⟨i, hi, h⟩ := Option.bind_eq_some_iff.mp h
    obtain ⟨js, hjs, rfl⟩ := Option.map_eq_some_iff.mp h
    obtain ⟨st₁, hrun, hdone⟩ := (hrec x (by simp)).complete (r := []) (by rwa [List.append_nil]) hi
    obtain ⟨st₂, hrest, hdone₂⟩ := appendElements_complete
      (fun y hy => hrec y (List.mem_cons_of_mem _ hy)) (hs.mono hdone.mem) hjs
    exact ⟨st₂, by rw [appendElements]; exact run_bind.mpr ⟨_, st₁, hrun, hrest⟩,
      by rw [callsAll]; exact hdone.trans hdone₂⟩

theorem appendElements_sound {t : Ty} : ∀ {xs : List Janet} {st st' : AppendState},
    (∀ x ∈ xs, Walks rt rec x) → Str st.mem p t.render → appendElements rec p xs st = .ok () st' →
    ∃ is, denoteEach rt t xs = some is
  | [], _, _, _, _, _ => ⟨[], by rw [denoteEach]⟩
  | x :: xs, st, st', hrec, hs, h => by
    rw [appendElements, run_bind] at h
    obtain ⟨q, st₁, hrun, hrest⟩ := h
    obtain ⟨i, hi, _, hdone⟩ := (hrec x (by simp)).exact (r := []) (by rwa [List.append_nil]) hrun
    obtain ⟨is, his⟩ := appendElements_sound (fun y hy => hrec y (List.mem_cons_of_mem _ hy))
      (hs.mono hdone.mem) hrest
    exact ⟨i :: is, by rw [denoteEach, hi, Option.bind_some, his, Option.map_some]⟩

/-- What `enter` does must not matter to the walk. -/
def Silent (enter : Append Unit) : Prop :=
  ∀ st, ∃ st', enter st = .ok () st' ∧ st'.mem = st.mem ∧ st'.calls = st.calls

theorem Silent.done {enter : Append Unit} (h : Silent enter) (hrun : enter st = .ok () st') :
    Done st st' [] := by
  obtain ⟨st₁, hst₁, hmem, hcalls⟩ := h st
  obtain ⟨_, rfl⟩ := EStateM.Result.ok.inj (hrun.symm.trans hst₁)
  exact ⟨by rw [hcalls, List.append_nil], hmem ▸ Extends.refl _⟩

variable {excessive : String} {enter : Append Unit} {signature : Ptr}

theorem appendLoop_complete (henter : Silent enter) : ∀ {xs : List Janet} {ts : List Ty}
    {is : List Item} {st : AppendState} {p : Ptr}, (∀ x ∈ xs, Walks rt rec x) →
    Str st.mem p (renderAll ts ++ r) → denoteFields rt ts xs = some is →
    ∃ st', appendLoop rec excessive enter signature p xs st =
      .ok (p.add (renderAll ts).length) st' ∧ Done st st' (callsAll is)
  | [], [], is, st, p, _, _, h => by
    rw [denoteFields] at h
    obtain rfl := Option.some.inj h
    refine ⟨st, ?_, by rw [callsAll]; exact Done.refl st⟩
    rw [appendLoop, renderAll]
    exact run_pure.mpr ⟨rfl, rfl⟩
  | [], t :: ts, is, st, p, _, _, h => by simp [denoteFields] at h
  | x :: xs, [], is, st, p, _, _, h => by simp [denoteFields] at h
  | x :: xs, t :: ts, is, st, p, hrec, hs, h => by
    rw [denoteFields] at h
    obtain ⟨i, hi, h⟩ := Option.bind_eq_some_iff.mp h
    obtain ⟨js, hjs, rfl⟩ := Option.map_eq_some_iff.mp h
    rw [renderAll, List.append_assoc] at hs
    obtain ⟨c, w, hc, _⟩ := t.render_head
    have hpos := t.render_pos
    have hread : st.mem.read p = some c := by
      rw [hs.read, hc]
      rfl
    have hcnul : c ≠ '\x00' := fun heq => t.nul_not_mem_render (by rw [hc, heq]; simp)
    obtain ⟨st₁, hst₁, hmem, hcalls⟩ := henter st
    have hdone₁ : Done st st₁ [] := henter.done hst₁
    obtain ⟨st₂, hrun, hdone₂⟩ := (hrec x (by simp)).complete (hs.mono hdone₁.mem) hi
    have hnext : Str st₂.mem (p.add t.render.length) (renderAll ts ++ r) :=
      (hs.mono (hdone₁.trans hdone₂).mem).append
    have hstep : (p.add (t.render.length - 1)).add 1 = p.add t.render.length := by
      rw [Ptr.add_add]
      congr 1
      omega
    obtain ⟨st₃, hrest, hdone₃⟩ := appendLoop_complete henter
      (fun y hy => hrec y (List.mem_cons_of_mem _ hy)) hnext hjs
    refine ⟨st₃, ?_, ?_⟩
    · rw [appendLoop]
      simp only [run_bind, run_cursor, run_panicIf, run_next]
      refine ⟨c, st, ⟨hread, rfl⟩, (), st, ⟨hcnul, rfl⟩, (), st₁, hst₁, _, st₂, hrun, _, st₂,
        ⟨⟨(renderAll ts ++ r).headD '\x00', ?_⟩, rfl, rfl⟩, ?_⟩
      · rw [hstep]; exact hnext.read
      · rw [hstep, hrest, Ptr.add_add, renderAll, List.length_append]
    · rw [callsAll]
      exact hdone₁.trans (hdone₂.trans hdone₃)

theorem appendLoop_sound (henter : Silent enter) : ∀ {xs : List Janet} {s : List Char}
    {st st' : AppendState} {p q : Ptr}, (∀ x ∈ xs, Walks rt rec x) → Str st.mem p s →
    appendLoop rec excessive enter signature p xs st = .ok q st' →
    ∃ ts r is, s = renderAll ts ++ r ∧ denoteFields rt ts xs = some is ∧
      q = p.add (renderAll ts).length ∧ Str st'.mem q r
  | [], s, st, st', p, q, _, hs, h => by
    rw [appendLoop, run_pure] at h
    obtain ⟨rfl, rfl⟩ := h
    exact ⟨[], s, [], by rw [renderAll, List.nil_append], by rw [denoteFields], by rw [renderAll]; rfl, hs⟩
  | x :: xs, s, st, st', p, q, hrec, hs, h => by
    rw [appendLoop] at h
    simp only [run_bind, run_cursor, run_panicIf, run_next] at h
    obtain ⟨c, _, ⟨hread, rfl⟩, _, st, ⟨hcnul, rfl⟩, _, st₁, hst₁, _, _, hrun, _, st₂,
      ⟨_, rfl, rfl⟩, hrest⟩ := h
    have hdone₁ : Done st st₁ [] := henter.done hst₁
    have hne : s ≠ [] := by
      rintro rfl
      exact hcnul (Option.some.inj (hread.symm.trans hs.nil_read))
    obtain ⟨t, r, i, rfl, hi, rfl, hdone₂⟩ :=
      (hrec x (by simp)).result (hs.mono hdone₁.mem) hne hrun
    have hpos := t.render_pos
    have hstep : (p.add (t.render.length - 1)).add 1 = p.add t.render.length := by
      rw [Ptr.add_add]
      congr 1
      omega
    have hnext : Str st₂.mem (p.add t.render.length) r :=
      (hs.mono (hdone₁.trans hdone₂).mem).append
    rw [hstep] at hrest
    obtain ⟨ts, w, is, rfl, his, rfl, hend⟩ := appendLoop_sound henter
      (fun y hy => hrec y (List.mem_cons_of_mem _ hy)) hnext hrest
    refine ⟨t :: ts, w, i :: is, ?_, ?_, ?_, hend⟩
    · rw [renderAll, List.append_assoc]
    · rw [denoteFields, hi, Option.bind_some, his, Option.map_some]
    · rw [Ptr.add_add, renderAll, List.length_append]

theorem calls_entry (k : Code) (t : Ty) (x : Basic) (i : Item) : calls (entryItem k t x i) =
    [.openContainer .dictEntry (k.char :: t.render)] ++ ([basicCall x] ++ (calls i ++ [.closeContainer])) := by
  simp [entryItem, calls, callsAll]

theorem appendEntries_complete (hsd : Accepts sd) {k : Code} {t : Ty} : ∀ {kvs : List (Janet × Janet)}
    {es : List Item} {st : AppendState}, (∀ kv ∈ kvs, Walks rt rec kv.2) →
    Str st.mem p (k.char :: t.render) → denoteEntries rt k t kvs = some es →
    ∃ st', appendEntries rt sd rec p kvs st = .ok () st' ∧ Done st st' (callsAll es)
  | [], es, st, _, _, h => by
    rw [denoteEntries] at h
    obtain rfl := Option.some.inj h
    exact ⟨st, by rw [appendEntries]; exact run_pure.mpr ⟨rfl, rfl⟩, by rw [callsAll]; exact Done.refl st⟩
  | (key, value) :: kvs, es, st, hrec, hs, h => by
    rw [denoteEntries] at h
    obtain ⟨x, hx, h⟩ := Option.bind_eq_some_iff.mp h
    obtain ⟨i, hi, h⟩ := Option.bind_eq_some_iff.mp h
    obtain ⟨fs, hfs, rfl⟩ := Option.map_eq_some_iff.mp h
    have hfit : Fits .dictEntry (k.char :: t.render) := ⟨k, t, rfl⟩
    obtain ⟨st₁, h₁, hd₁⟩ := hsd.open_ok hfit rt st
    obtain ⟨st₂, h₂, hd₂⟩ := appendBasicType_ok hsd (hs.mono hd₁.mem).cons.1 hx
    have hval := (hs.mono (hd₁.trans hd₂).mem).cons.2
    obtain ⟨st₃, h₃, hd₃⟩ := (hrec (key, value) (by simp)).complete hval.append_nil hi
    obtain ⟨st₄, h₄, hd₄⟩ := hsd.call_ok (c := .closeContainer) (by simp) rt st₃
    have hdone := hd₁.trans (hd₂.trans (hd₃.trans hd₄))
    obtain ⟨st₅, h₅, hd₅⟩ := appendEntries_complete hsd
      (fun kv hkv => hrec kv (List.mem_cons_of_mem _ hkv)) (hs.mono hdone.mem) hfs
    refine ⟨st₅, ?_, ?_⟩
    · rw [appendEntries]
      simp only [run_bind, run_cstr, run_next]
      exact ⟨_, _, ⟨hs.cstr, rfl⟩, (), st₁, h₁, (), st₂, h₂, _, _, ⟨⟨_, hval.read⟩, rfl, rfl⟩, _, st₃, h₃,
        (), st₄, h₄, h₅⟩
    · rw [callsAll, calls_entry]
      exact hdone.trans hd₅

theorem appendEntries_sound {k : Code} {t : Ty} : ∀ {kvs : List (Janet × Janet)}
    {st st' : AppendState}, (∀ kv ∈ kvs, Walks rt rec kv.2) → Str st.mem p (k.char :: t.render) →
    appendEntries rt sd rec p kvs st = .ok () st' → ∃ es, denoteEntries rt k t kvs = some es
  | [], _, _, _, _, _ => ⟨[], by rw [denoteEntries]⟩
  | (key, value) :: kvs, st, st', hrec, hs, h => by
    rw [appendEntries] at h
    simp only [run_bind, run_cstr, run_next] at h
    obtain ⟨_, st, ⟨_, rfl⟩, _, st₁, h₁, _, st₂, h₂, _, _, ⟨_, rfl, rfl⟩, _, st₃, h₃, _, st₄, h₄, h₅⟩ := h
    obtain ⟨_, hd₁⟩ := call_done h₁
    obtain ⟨x, hx, hd₂⟩ := appendBasicType_done (hs.mono hd₁.mem).cons.1 h₂
    obtain ⟨i, hi, _, hd₃⟩ := (hrec (key, value) (by simp)).exact
      (hs.mono (hd₁.trans hd₂).mem).cons.2.append_nil h₃
    obtain ⟨_, hd₄⟩ := call_done h₄
    have hdone := hd₁.trans (hd₂.trans (hd₃.trans hd₄))
    obtain ⟨es, hes⟩ := appendEntries_sound (fun kv hkv => hrec kv (List.mem_cons_of_mem _ hkv))
      (hs.mono hdone.mem) h₅
    exact ⟨entryItem k t x i :: es,
      by rw [denoteEntries, hx, Option.bind_some, hi, Option.bind_some, hes, Option.map_some]⟩

end loops

/-! ### Scratch copies -/

/-- `janet_scalloc` and `memcpy` make a string of the front of another one. -/
theorem copy_ok {n : ℕ} (h : Str st.mem p (s ++ r)) (hn : s.length < n) : ∃ st₁ st₂,
    janetScalloc n st = .ok (st.mem.calloc n).1 st₁ ∧
    memcpy (st.mem.calloc n).1 p s.length st₁ = .ok () st₂ ∧ Done st st₂ [] ∧
    Str st₂.mem (st.mem.calloc n).1 s ∧
    st₂.mem.blocks (st.mem.calloc n).1.blk = some (s ++ List.replicate (n - s.length) '\x00') := by
  obtain ⟨m, hcopy, hext, hblk, hstr⟩ := calloc_memcpy h hn
  refine ⟨{ st with mem := (st.mem.calloc n).2 }, { st with mem := m }, run_allocate.mpr ⟨rfl, rfl⟩,
    run_update.mpr ⟨m, hcopy, rfl⟩, ⟨(List.append_nil _).symm, hext⟩, hstr, hblk⟩

theorem copy_done {n : ℕ} (h : Str st.mem p (s ++ r)) (hn : s.length < n)
    (h₁ : janetScalloc n st = .ok q st₁) (h₂ : memcpy q p s.length st₁ = .ok () st₂) :
    Done st st₂ [] ∧ Str st₂.mem q s ∧ st.mem.next ≤ q.blk ∧ q.off = 0 ∧
      st₂.mem.blocks q.blk = some (s ++ List.replicate (n - s.length) '\x00') := by
  obtain ⟨st₃, st₄, h₃, h₄, hdone, hstr, hblk⟩ := copy_ok h hn
  obtain ⟨rfl, rfl⟩ := EStateM.Result.ok.inj (h₃.symm.trans h₁)
  obtain ⟨_, rfl⟩ := EStateM.Result.ok.inj (h₄.symm.trans h₂)
  exact ⟨hdone, hstr, Nat.le_refl _, rfl, hblk⟩

theorem sfree_ok {cs : List Call} (h : Str st₁.mem q s) (hdone : Done st st₁ cs)
    (hq : st.mem.next ≤ q.blk) (hoff : q.off = 0) :
    ∃ st₂, janetSfree q st₁ = .ok () st₂ ∧ Done st st₂ cs := by
  obtain ⟨m, hfree, hext⟩ := h.free hdone.mem hq hoff
  exact ⟨{ st₁ with mem := m }, run_update.mpr ⟨m, hfree, rfl⟩, hdone.calls_eq, hext⟩

/-! ### Branches -/

section branches
variable {rec : Ptr → Janet → Append Ptr} {v : Janet} {i : Item}

theorem silent_pure : Silent (pure ()) := fun st => ⟨st, rfl, rfl, rfl⟩

theorem appendStructType_complete (hsd : Accepts sd) (hrec : ∀ x, x.depth < v.depth → Walks rt rec x)
    {t : Ty} {ts : List Ty} (hs : Str st.mem p (Ty.render (.struct t ts) ++ r))
    (hv : denote rt (.struct t ts) v = some i) :
    ∃ st', appendStructType rt sd rec p v st =
      .ok (p.add ((Ty.render (.struct t ts)).length - 1)) st' ∧ Done st st' (calls i) := by
  rw [denote_struct] at hv
  obtain ⟨xs, hxs, hv⟩ := Option.bind_eq_some_iff.mp hv
  obtain ⟨is, his, rfl⟩ := Option.map_eq_some_iff.mp hv
  have hmatch := matchBracket_struct t ts r
  have hren : Ty.render (.struct t ts) ++ r = '(' :: (renderAll (t :: ts) ++ ')' :: r) := by
    simp [Ty.render, renderAll]
  have hlen : (Ty.render (.struct t ts)).length - 1 = (renderAll (t :: ts)).length + 1 := by
    simp only [Ty.render, renderAll, List.length_cons, List.length_append, List.length_nil]
    omega
  have hpos : 0 < (renderAll (t :: ts)).length := by
    have := t.render_pos
    rw [renderAll, List.length_append]
    omega
  rw [hren] at hs hmatch
  rw [hlen]
  have hxs' : ¬ xs.length = 0 := by
    rintro hnil
    obtain rfl := List.length_eq_zero_iff.mp hnil
    simp [denoteFields] at his
  have hinner := hs.cons.2
  obtain ⟨st₁, st₂, h₁, h₂, hd₂, hstr, _⟩ := copy_ok hinner (Nat.lt_succ_self _)
  have hclose := (hinner.mono hd₂.mem).append.cons.1
  rw [Ptr.add_add, Nat.add_comm 1] at hclose
  obtain ⟨st₃, h₃, hd₃⟩ := hsd.open_ok (k := .struct) ⟨t :: ts, rfl⟩ rt st₂
  obtain ⟨st₄, h₄, hd₄⟩ := appendLoop_complete (r := []) silent_pure
    (fun x hx => hrec x (depth_indexed hxs hx)) (hstr.mono hd₃.mem).append_nil his
  have hend : Str st₄.mem _ [] := (hstr.mono (hd₃.trans hd₄).mem).append_nil.append
  obtain ⟨st₅, h₅, hd₅⟩ := hsd.call_ok (c := .closeContainer) (by simp) rt st₄
  have hdone := hd₂.trans (hd₃.trans (hd₄.trans hd₅))
  obtain ⟨st₆, h₆, hd₆⟩ := sfree_ok (hstr.mono (hd₃.trans (hd₄.trans hd₅)).mem) hdone
    (Nat.le_refl _) rfl
  refine ⟨st₆, ?_, ?_⟩
  · rw [appendStructType]
    simp only [run_bind, run_scan, run_panicIf, run_skip, run_cstr, run_cursor, run_pure]
    exact ⟨_, st, ⟨_, hs.cstr, hmatch, rfl⟩, (), st, ⟨by omega, rfl⟩, _, st₁, h₁, (), st₂, h₂, _, st₂,
      ⟨⟨_, hclose⟩, rfl, rfl⟩, _, st₂, ⟨hstr.cstr, rfl⟩, (), st₃, h₃, xs, st₃,
      run_getter.mpr ⟨hxs, rfl⟩, (), st₃, ⟨hxs', rfl⟩, _, st₄, h₄, _, st₄, ⟨hend.nil_read, rfl⟩, (), st₄,
      ⟨by simp, rfl⟩, (), st₅, h₅, (), st₆, h₆, rfl, rfl⟩
  · have hcalls : calls (.container .struct (renderAll (t :: ts)) is) =
        [] ++ ([.openContainer .struct (renderAll (t :: ts))] ++ (callsAll is ++ [.closeContainer])) := by
      simp [calls]
    rw [hcalls]
    exact hd₆

theorem appendStructType_sound (hsd : Accepts sd) (hrec : ∀ x, x.depth < v.depth → Walks rt rec x)
    (hs : Str st.mem p ('(' :: s)) (h : appendStructType rt sd rec p v st = .ok q st') :
    ∃ t r i, '(' :: s = t.render ++ r ∧ denote rt t v = some i := by
  rw [appendStructType] at h
  simp only [run_bind, run_scan, run_panicIf, run_skip, run_cstr, run_cursor, run_pure] at h
  obtain ⟨end_, _, ⟨_, hcstr, hmatch, rfl⟩, _, st, ⟨hend, rfl⟩, d, st₁, h₁, _, _, h₂, _, _, ⟨_, rfl, rfl⟩,
    _, st₂, ⟨hd, rfl⟩, _, _, h₃, xs, st₃, hxs, _, _, ⟨_, rfl⟩, z, _, h₄, _, st₄, ⟨hz, rfl⟩, _, _,
    ⟨hnul, rfl⟩, _⟩ := h
  obtain rfl := Option.some.inj (hs.cstr.symm.trans hcstr)
  obtain ⟨w, r, rfl, rfl⟩ := matchBracket_sound hmatch
  obtain ⟨hd₂, hstr, _⟩ := copy_done hs.cons.2 (Nat.lt_succ_self _) h₁ h₂
  obtain rfl := Option.some.inj (hstr.cstr.symm.trans hd)
  obtain ⟨hopen, hd₃⟩ := call_done h₃
  obtain ⟨ts, rfl⟩ : ∃ ts, w = renderAll ts := hsd.open_iff.mp hopen
  obtain ⟨hview, hst₃⟩ := run_getter.mp hxs
  subst hst₃
  obtain ⟨us, rest, is, hsplit, his, _, hstop⟩ := appendLoop_sound silent_pure
    (fun x hx => hrec x (depth_indexed hview hx)) (hstr.mono hd₃.mem) h₄
  -- the loop stopped at the end of the contents, so they are the types it walked over
  obtain rfl := hstop.eq_nil (by rw [hz, not_not.mp hnul])
  rw [List.append_nil] at hsplit
  obtain rfl := renderAll_inj hsplit
  cases ts with
  | nil => simp [renderAll] at hend
  | cons t ts =>
    refine ⟨.struct t ts, r, .container .struct (renderAll (t :: ts)) is,
      by simp [Ty.render, renderAll], ?_⟩
    rw [denote_struct, hview, Option.bind_some, his, Option.map_some]

/-- How an array of bytes begins, and no other array. -/
theorem render_ne_byte {t : Ty} (ht : isByte t = false) : t.render.head? ≠ some 'y' := by
  cases t with
  | basic c =>
    intro h
    obtain rfl : c = .byte := Code.char_inj (Option.some.inj h)
    exact absurd ht (by decide)
  | _ => simp [Ty.render]

theorem calls_array {t : Ty} (ht : isByte t = false) (is : List Item) :
    calls (.container .array t.render is) =
      [] ++ ([.openContainer .array t.render] ++ (callsAll is ++ [.closeContainer])) := by
  have hne : t.render ≠ [Code.byte.char] := fun h => render_ne_byte ht (by rw [h]; rfl)
  simp [calls, hne]

/-- The walk over an array other than of bytes. -/
theorem appendArrayType_complete (hsd : Accepts sd) (hrec : ∀ x, x.depth < v.depth → Walks rt rec x)
    {t : Ty} (ht : isByte t = false) (hs : Str st.mem p (Ty.render (.array t) ++ r))
    (hv : denote rt (.array t) v = some i) :
    ∃ st', appendArrayType rt sd rec p v st =
      .ok (p.add ((Ty.render (.array t)).length - 1)) st' ∧ Done st st' (calls i) := by
  rw [denote_array ht] at hv
  obtain ⟨xs, hxs, hv⟩ := Option.bind_eq_some_iff.mp hv
  obtain ⟨is, his, rfl⟩ := Option.map_eq_some_iff.mp hv
  have hfind := findSubtype_render (.array t) r
  have hlen : (Ty.render (.array t)).length - 1 = t.render.length := by
    rw [Ty.render, List.length_cons, Nat.add_sub_cancel]
  rw [hlen] at hfind ⊢
  rw [Ty.render, List.cons_append] at hs hfind
  have hinner := hs.cons.2
  obtain ⟨a, u, ha, hbrace, _⟩ := t.render_head
  have hbyte : a ≠ 'y' := fun heq => render_ne_byte ht (by rw [ha, heq]; rfl)
  have hpeek : st.mem.read (p.add 1) = some a := by rw [hinner.read, ha]; rfl
  obtain ⟨st₁, st₂, h₁, h₂, hd₂, hstr, _⟩ := copy_ok hinner (Nat.lt_succ_self _)
  obtain ⟨st₃, h₃, hd₃⟩ := hsd.open_ok (k := .array) (Or.inl ⟨t, rfl⟩) rt st₂
  obtain ⟨st₄, h₄, hd₄⟩ := appendElements_complete (fun x hx => hrec x (depth_indexed hxs hx))
    (hstr.mono hd₃.mem) his
  obtain ⟨st₅, h₅, hd₅⟩ := hsd.call_ok (c := .closeContainer) (by simp) rt st₄
  have hdone := hd₂.trans (hd₃.trans (hd₄.trans hd₅))
  obtain ⟨st₆, h₆, hd₆⟩ := sfree_ok (hstr.mono (hd₃.trans (hd₄.trans hd₅)).mem) hdone
    (Nat.le_refl _) rfl
  have hskip : ∃ c, st₂.mem.read (p.add t.render.length) = some c :=
    (hs.mono hd₂.mem).read_at (by simp only [List.length_cons, List.length_append]; omega)
  refine ⟨st₆, ?_, by rw [calls_array ht]; exact hd₆⟩
  rw [appendArrayType]
  simp only [run_bind, run_peek]
  refine ⟨a, st, ⟨hpeek, rfl⟩, ?_⟩
  rw [if_neg hbrace, if_neg hbyte]
  simp only [run_bind, run_scan, run_skip, run_cstr, run_pure]
  exact ⟨_, st, ⟨_, hs.cstr, hfind, rfl⟩, _, st₁, h₁, (), st₂, h₂, _, st₂, ⟨hskip, rfl, rfl⟩, _, st₂,
    ⟨hstr.cstr, rfl⟩, (), st₃, h₃, xs, st₃, run_getter.mpr ⟨hxs, rfl⟩, (), st₄, h₄, (), st₅, h₅, (), st₆,
    h₆, rfl, rfl⟩

theorem appendArrayType_sound (hsd : Accepts sd) (hrec : ∀ x, x.depth < v.depth → Walks rt rec x)
    (hs : Str st.mem p ('a' :: s)) (hbrace : s.head? ≠ some '{') (hbyte : s.head? ≠ some 'y')
    (h : appendArrayType rt sd rec p v st = .ok q st') :
    ∃ t r i, 'a' :: s = t.render ++ r ∧ denote rt t v = some i := by
  rw [appendArrayType] at h
  simp only [run_bind, run_peek] at h
  obtain ⟨ch, st, ⟨hpeek, rfl⟩, h⟩ := h
  have hhead : ch = s.headD '\x00' := Option.some.inj (hpeek.symm.trans hs.cons.2.read)
  have hne : ∀ {b : Char}, b ≠ '\x00' → s.head? ≠ some b → ch ≠ b := by
    rintro b hb hs' rfl
    cases s with
    | nil => exact hb hhead
    | cons c s => exact hs' (by rw [hhead]; rfl)
  rw [if_neg (hne (by decide) hbrace), if_neg (hne (by decide) hbyte)] at h
  simp only [run_bind, run_scan, run_skip, run_cstr, run_pure] at h
  obtain ⟨end_, _, ⟨_, hcstr, hfind, rfl⟩, d, st₁, h₁, _, _, h₂, _, _, ⟨_, rfl, rfl⟩, _, st₂, ⟨hd, rfl⟩,
    _, _, h₃, xs, st₃, hxs, _, st₄, h₄, _⟩ := h
  obtain rfl := Option.some.inj (hs.cstr.symm.trans hcstr)
  -- the copy is a front part of what follows the `a`
  obtain ⟨w, r, rfl, rfl⟩ : ∃ w r, s = w ++ r ∧ end_ = w.length := by
    obtain ⟨w, c, r, hsplit, rfl⟩ := findSubtype_sound hfind
    cases w with
    | nil =>
      rw [findSubtype, if_pos rfl] at hfind
      cases hrest : findSubtype s with
      | error e => rw [hrest] at hfind; simp [Except.map] at hfind
      | ok n => rw [hrest] at hfind; simp [Except.map] at hfind
    | cons a w =>
      obtain ⟨rfl, rfl⟩ := List.cons.inj hsplit
      exact ⟨w ++ [c], r, by simp, by simp⟩
  obtain ⟨hd₂, hstr, _⟩ := copy_done hs.cons.2 (Nat.lt_succ_self _) h₁ h₂
  obtain rfl := Option.some.inj (hstr.cstr.symm.trans hd)
  obtain ⟨hopen, hd₃⟩ := call_done h₃
  obtain ⟨hview, hst₃⟩ := run_getter.mp hxs
  subst hst₃
  rcases hsd.open_iff.mp hopen with ⟨t, rfl⟩ | ⟨k, t, rfl⟩
  · have ht : isByte t = false := by
      cases t with
      | basic c => cases c <;> first | rfl | exact absurd rfl hbyte
      | _ => rfl
    obtain ⟨is, his⟩ := appendElements_sound (fun x hx => hrec x (depth_indexed hview hx))
      (hstr.mono hd₃.mem) h₄
    refine ⟨.array t, r, .container .array t.render is, by rw [Ty.render, List.cons_append], ?_⟩
    rw [denote_array ht, hview, Option.bind_some, his, Option.map_some]
  · exact absurd rfl hbrace

theorem calls_bytes (bs : List UInt8) : calls (bytesItem bs) = [.appendArray bs] := by
  have hbytes : (bs.map fun b => Item.basic (.byte b)).filterMap byteOf = bs := by
    rw [List.filterMap_map]
    simp [Function.comp_def, byteOf]
  simp [bytesItem, calls, hbytes]

/-- The walk over an array of bytes. -/
theorem appendBytes_complete (hsd : Accepts sd) {t : Ty} (ht : isByte t = true)
    (hs : Str st.mem p (Ty.render (.array t) ++ r)) (hv : denote rt (.array t) v = some i) :
    ∃ st', appendArrayType rt sd rec p v st =
      .ok (p.add ((Ty.render (.array t)).length - 1)) st' ∧ Done st st' (calls i) := by
  rw [denote_bytes ht] at hv
  obtain ⟨bs, hbs, rfl⟩ := Option.map_eq_some_iff.mp hv
  obtain rfl : t = .basic .byte := by
    cases t with
    | basic c => cases c <;> first | rfl | exact absurd ht (by decide)
    | _ => exact absurd ht (by simp [isByte])
  have hinner : Str st.mem (p.add 1) ('y' :: r) := hs.cons.2
  obtain ⟨st₁, h₁, hd₁⟩ := hsd.call_ok (c := .appendArray bs) (by simp) rt st
  refine ⟨st₁, ?_, by rw [calls_bytes]; exact hd₁⟩
  rw [appendArrayType]
  simp only [run_bind, run_peek]
  refine ⟨'y', st, ⟨hinner.cons.1, rfl⟩, ?_⟩
  rw [if_neg (by decide), if_pos rfl]
  simp only [run_bind, run_next, run_pure]
  exact ⟨_, st, ⟨⟨_, hinner.cons.1⟩, rfl, rfl⟩, bs, st, run_getter.mpr ⟨hbs, rfl⟩, (), st₁, h₁, rfl, rfl⟩

theorem appendBytes_sound (hs : Str st.mem p ('a' :: 'y' :: s))
    (h : appendArrayType rt sd rec p v st = .ok q st') :
    ∃ t r i, 'a' :: 'y' :: s = t.render ++ r ∧ denote rt t v = some i := by
  rw [appendArrayType] at h
  simp only [run_bind, run_peek] at h
  obtain ⟨ch, st, ⟨hpeek, rfl⟩, h⟩ := h
  obtain rfl : ch = 'y' := Option.some.inj (hpeek.symm.trans hs.cons.2.cons.1)
  rw [if_neg (by decide), if_pos rfl] at h
  simp only [run_bind, run_next, run_pure] at h
  obtain ⟨_, _, ⟨_, rfl, rfl⟩, bs, _, hbs, _⟩ := h
  obtain ⟨hview, _⟩ := run_getter.mp hbs
  refine ⟨.array (.basic .byte), s, bytesItem bs, by simp [Ty.render, Code.char], ?_⟩
  rw [denote_bytes rfl, hview, Option.map_some]

/-- Stripping the braces of a scratch copy leaves the contents of an entry. -/
theorem strip_ok {c d : Char} {rest : List Char} {cs : List Call} (hdone : Done st st₁ cs)
    (hq : st.mem.next ≤ q.blk) (hoff : q.off = 0) (hnul : '\x00' ∉ s)
    (hblk : st₁.mem.blocks q.blk = some (c :: (s ++ d :: rest))) : ∃ st₂ st₃,
    memmove q (q.add 1) s.length st₁ = .ok () st₂ ∧
    update (fun m => m.write (q.add s.length) ['\x00']) st₂ = .ok () st₃ ∧ Done st st₃ cs ∧
    Str st₃.mem q s := by
  obtain ⟨m₂, m₃, _, hmove, hwrite, hext, _, hstr⟩ := memmove_strip hdone.mem hq hoff hnul hblk
  exact ⟨{ st₁ with mem := m₂ }, { st₁ with mem := m₃ }, run_update.mpr ⟨m₂, hmove, rfl⟩,
    run_update.mpr ⟨m₃, hwrite, rfl⟩, ⟨hdone.calls_eq, hext⟩, hstr⟩

theorem calls_dict {k : Code} {t : Ty} (es : List Item) :
    calls (.container .array (renderEntry k t) es) =
      [] ++ [.openContainer .array (renderEntry k t)] ++ (callsAll es ++ [.closeContainer]) := by
  simp [calls, renderEntry]

theorem nul_not_mem_entry (k : Code) (t : Ty) : '\x00' ∉ k.char :: t.render := by
  have hk : '\x00' ≠ k.char := k.char_ne.2.2.2.2.2.2.symm
  simp [hk, t.nul_not_mem_render]

theorem appendDictType_complete (hsd : Accepts sd) (hrec : ∀ x, x.depth < v.depth → Walks rt rec x)
    {k : Code} {t : Ty} (hs : Str st.mem p (renderEntry k t ++ r)) (hv : denote rt (.dict k t) v = some i) :
    ∃ st', appendDictType rt sd rec p v st = .ok (p.add (t.render.length + 2)) st' ∧
      Done st st' (calls i) := by
  rw [denote_dict] at hv
  obtain ⟨kvs, hkvs, hv⟩ := Option.bind_eq_some_iff.mp hv
  obtain ⟨es, hes, rfl⟩ := Option.map_eq_some_iff.mp hv
  have hpos := t.render_pos
  have hlen : (renderEntry k t).length = t.render.length + 2 + 1 := by
    simp [renderEntry]
  obtain ⟨st₁, st₂, h₁, h₂, hd₂, hstr, hblk⟩ := copy_ok (n := t.render.length + 2 + 2) hs (by omega)
  rw [hlen] at h₂
  have hskip : ∃ c, st₂.mem.read (p.add (t.render.length + 2)) = some c :=
    (hs.mono hd₂.mem).read_at (by rw [List.length_append]; omega)
  have hkey : st₂.mem.read ((st.mem.calloc (t.render.length + 2 + 2)).1.add 1) = some k.char :=
    hstr.cons.2.cons.1
  obtain ⟨st₃, h₃, hd₃⟩ := hsd.open_ok (k := .array) (Or.inr ⟨k, t, rfl⟩) rt st₂
  have hblk₃ : st₃.mem.blocks (st.mem.calloc (t.render.length + 2 + 2)).1.blk = some ('{' ::
      ((k.char :: t.render) ++ '}' :: List.replicate (t.render.length + 2 + 2 - (renderEntry k t).length)
        '\x00')) := by
    rw [hd₃.mem.same _ (Mem.lt_next hblk), hblk]
    simp [renderEntry]
  have hnul := nul_not_mem_entry k t
  obtain ⟨st₄, st₅, h₄, h₅, hd₅, hstr₅⟩ := strip_ok (hd₂.trans hd₃) (Nat.le_refl _) rfl hnul hblk₃
  obtain ⟨st₆, h₆, hd₆⟩ := appendEntries_complete hsd (fun kv hkv => hrec kv.2 (depth_dictionary hkvs hkv))
    hstr₅ hes
  obtain ⟨st₇, h₇, hd₇⟩ := hsd.call_ok (c := .closeContainer) (by simp) rt st₆
  obtain ⟨st₈, h₈, hd₈⟩ := sfree_ok (hstr₅.mono (hd₆.trans hd₇).mem) (hd₅.trans (hd₆.trans hd₇))
    (Nat.le_refl _) rfl
  refine ⟨st₈, ?_, by rw [calls_dict]; exact hd₈⟩
  rw [appendDictType]
  simp only [run_bind, run_scan, run_panicIf, run_skip, run_cstr, run_cursor, run_pure]
  exact ⟨_, st, ⟨_, hs.cstr, matchBracket_entry k t r, rfl⟩, (), st, ⟨by omega, rfl⟩, _, st₁, h₁, (), st₂,
    h₂, _, st₂, ⟨hskip, rfl, rfl⟩, _, st₂, ⟨hkey, rfl⟩, (), st₂, ⟨by simp [isBasicType_char], rfl⟩, _, st₂,
    ⟨hstr.cstr, rfl⟩, (), st₃, h₃, (), st₄, h₄, (), st₅, h₅, kvs, st₅, run_getter.mpr ⟨hkvs, rfl⟩, (), st₆,
    h₆, (), st₇, h₇, (), st₈, h₈, rfl, rfl⟩

theorem appendDictType_sound (hsd : Accepts sd) (hrec : ∀ x, x.depth < v.depth → Walks rt rec x)
    (hs : Str st.mem p ('{' :: s)) (h : appendDictType rt sd rec p v st = .ok q st') :
    ∃ k t r i, '{' :: s = renderEntry k t ++ r ∧ denote rt (.dict k t) v = some i := by
  rw [appendDictType] at h
  simp only [run_bind, run_scan, run_panicIf, run_skip, run_cstr, run_cursor, run_pure] at h
  obtain ⟨end_, _, ⟨_, hcstr, hmatch, rfl⟩, _, st, ⟨_, rfl⟩, d, st₁, h₁, _, _, h₂, _, _, ⟨_, rfl, rfl⟩,
    _, _, ⟨_, rfl⟩, _, _, ⟨_, rfl⟩, _, st₂, ⟨hd, rfl⟩, _, st₃, h₃, _, st₄, h₄, _, st₅, h₅, kvs, st₆, hkvs,
    _, _, h₆, _⟩ := h
  obtain rfl := Option.some.inj (hs.cstr.symm.trans hcstr)
  obtain ⟨w, r, rfl, rfl⟩ := matchBracket_sound hmatch
  have hwhole : '{' :: (w ++ '}' :: r) = ('{' :: (w ++ ['}'])) ++ r := by simp
  have hlen : w.length + 1 + 1 = ('{' :: (w ++ ['}'])).length := by simp
  rw [hwhole] at hs
  rw [hlen] at h₂
  obtain ⟨hd₂, hstr, hq, hoff, hblk⟩ := copy_done hs (by simp) h₁ h₂
  obtain rfl := Option.some.inj (hstr.cstr.symm.trans hd)
  obtain ⟨hopen, hd₃⟩ := call_done h₃
  obtain ⟨hview, hst₆⟩ := run_getter.mp hkvs
  subst hst₆
  rcases hsd.open_iff.mp hopen with ⟨t, ht⟩ | ⟨k, t, hkt⟩
  · obtain ⟨c, u, hc, hne, _⟩ := t.render_head
    rw [hc] at ht
    exact absurd (List.cons.inj ht).1.symm hne
  · have hw : w = k.char :: t.render := by
      have hinner := (List.cons.inj hkt).2
      rw [← List.cons_append] at hinner
      exact List.append_cancel_right hinner
    subst hw
    have hnul := nul_not_mem_entry k t
    have hblk₃ : st₃.mem.blocks d.blk = some ('{' :: ((k.char :: t.render) ++ '}' ::
        List.replicate ((k.char :: t.render).length + 1 + 2 -
          ('{' :: ((k.char :: t.render) ++ ['}'])).length) '\x00')) := by
      rw [hd₃.mem.same _ (Mem.lt_next hblk), hblk]
      simp
    obtain ⟨st₄', st₅', h₄', h₅', hd₅, hstr₅⟩ := strip_ok (hd₂.trans hd₃) hq hoff hnul hblk₃
    obtain ⟨_, rfl⟩ := EStateM.Result.ok.inj (h₄'.symm.trans h₄)
    obtain ⟨_, rfl⟩ := EStateM.Result.ok.inj (h₅'.symm.trans h₅)
    obtain ⟨es, hes⟩ := appendEntries_sound (fun kv hkv => hrec kv.2 (depth_dictionary hview hkv))
      hstr₅ h₆
    refine ⟨k, t, r, .container .array (renderEntry k t) es, by simp [renderEntry], ?_⟩
    rw [denote_dict, hview, Option.bind_some, hes, Option.map_some]

/-- The walk over a dictionary, from its `a`. -/
theorem appendDict_complete (hsd : Accepts sd) (hrec : ∀ x, x.depth < v.depth → Walks rt rec x)
    {k : Code} {t : Ty} (hs : Str st.mem p (Ty.render (.dict k t) ++ r))
    (hv : denote rt (.dict k t) v = some i) :
    ∃ st', appendArrayType rt sd rec p v st =
      .ok (p.add ((Ty.render (.dict k t)).length - 1)) st' ∧ Done st st' (calls i) := by
  have hren : Ty.render (.dict k t) ++ r = 'a' :: (renderEntry k t ++ r) := by
    simp [Ty.render, renderEntry]
  have hlen : (Ty.render (.dict k t)).length - 1 = 1 + (t.render.length + 2) := by
    simp only [Ty.render, List.length_cons, List.length_append, List.length_nil]
    omega
  rw [hren] at hs
  have hread : st.mem.read (p.add 1) = some '{' := hs.cons.2.cons.1
  obtain ⟨st', hrun, hdone⟩ := appendDictType_complete hsd hrec hs.cons.2 hv
  refine ⟨st', ?_, hdone⟩
  rw [hlen, ← Ptr.add_add, appendArrayType]
  simp only [run_bind, run_peek]
  refine ⟨'{', st, ⟨hread, rfl⟩, ?_⟩
  rw [if_pos rfl]
  exact run_bind.mpr ⟨p.add 1, st, run_next.mpr ⟨⟨_, hread⟩, rfl, rfl⟩, hrun⟩

/-- Whatever follows the `a`. -/
theorem appendArray_sound (hsd : Accepts sd) (hrec : ∀ x, x.depth < v.depth → Walks rt rec x)
    (hs : Str st.mem p ('a' :: s)) (h : appendArrayType rt sd rec p v st = .ok q st') :
    ∃ t r i, 'a' :: s = t.render ++ r ∧ denote rt t v = some i := by
  by_cases hbrace : s.head? = some '{'
  · obtain ⟨w, rfl⟩ : ∃ w, s = '{' :: w := by
      cases s with
      | nil => simp at hbrace
      | cons c w => exact ⟨w, by rw [Option.some.inj hbrace]⟩
    have hread : st.mem.read (p.add 1) = some '{' := hs.cons.2.cons.1
    rw [appendArrayType] at h
    simp only [run_bind, run_peek] at h
    obtain ⟨ch, st, ⟨hpeek, rfl⟩, h⟩ := h
    obtain rfl := Option.some.inj (hread.symm.trans hpeek)
    rw [if_pos rfl] at h
    obtain ⟨_, st, hnext, hrun⟩ := run_bind.mp h
    obtain ⟨_, rfl, rfl⟩ := run_next.mp hnext
    obtain ⟨k, t, r, i, hsplit, hi⟩ := appendDictType_sound hsd hrec hs.cons.2 hrun
    exact ⟨.dict k t, r, i, by rw [hsplit, Ty.render, renderEntry]; simp, hi⟩
  · by_cases hbyte : s.head? = some 'y'
    · obtain ⟨w, rfl⟩ : ∃ w, s = 'y' :: w := by
        cases s with
        | nil => simp at hbyte
        | cons c w => exact ⟨w, by rw [Option.some.inj hbyte]⟩
      exact appendBytes_sound hs h
    · exact appendArrayType_sound hsd hrec hs hbrace hbyte h

theorem ofUInt8_nul {b : UInt8} : Char.ofUInt8 b = '\x00' ↔ b = 0 := by
  constructor
  · intro h
    have hval : b.toUInt32.toNat = 0 := congrArg Char.toNat h
    rw [UInt8.toNat_toUInt32] at hval
    exact UInt8.toNat_inj.mp hval
  · rintro rfl; rfl

theorem nul_mem_chars {bs : List UInt8} : '\x00' ∈ chars bs ↔ 0 ∈ bs := by
  simp [chars, ofUInt8_nul]

theorem getcbytes_eq_some {bs : List UInt8} {s : CString} :
    janetGetcbytes bs = some s ↔ s.bytes = bs := by
  rw [janetGetcbytes]
  split
  · next h =>
    constructor
    · intro heq; rw [← Option.some.inj heq]
    · rintro rfl; rfl
  · next h =>
    constructor
    · intro heq; exact absurd heq (by simp)
    · rintro rfl; exact absurd s.nul_free h

theorem appendVariantType_complete (hsd : Accepts sd)
    (hrec : ∀ x, x.depth < v.depth → Walks rt rec x) (hv : denote rt .variant v = some i) :
    ∃ st', appendVariantType rt sd rec p v st = .ok p st' ∧ Done st st' (calls i) := by
  obtain ⟨bs, x, t, j, rfl, hbs, hj, rfl⟩ := denote_variant hv
  have hnul : '\x00' ∉ chars bs := hbs ▸ t.nul_not_mem_render
  obtain ⟨s, hs⟩ : ∃ s, janetGetcbytes bs = some s :=
    ⟨⟨bs, fun hmem => hnul (nul_mem_chars.mpr hmem)⟩, getcbytes_eq_some.mpr rfl⟩
  obtain rfl := getcbytes_eq_some.mp hs
  have hstr := alloc_str (m := st.mem) (r := []) hnul
  have hext := alloc_extends st.mem (chars s.bytes ++ ['\x00'])
  have hdone₁ : Done st { st with mem := (st.mem.alloc (chars s.bytes ++ ['\x00'])).2 } [] :=
    ⟨(List.append_nil _).symm, hext⟩
  obtain ⟨st₂, h₂, hd₂⟩ := hsd.open_ok (k := .variant) ⟨t, hbs⟩ rt
    { st with mem := (st.mem.alloc (chars s.bytes ++ ['\x00'])).2 }
  have hq := hbs ▸ hstr.mono hd₂.mem
  obtain ⟨st₃, h₃, hd₃⟩ := (hrec x (depth_indexed rfl (by simp))).complete hq.append_nil hj
  obtain ⟨st₄, h₄, hd₄⟩ := hsd.call_ok (c := .closeContainer) (by simp) rt st₃
  refine ⟨st₄, ?_, ?_⟩
  · rw [appendVariantType]
    simp only [run_bind]
    refine ⟨_, st, run_getter.mpr ⟨rfl, rfl⟩, ?_⟩
    simp only [hs, run_bind, run_allocate, run_cstr, run_pure]
    exact ⟨_, _, ⟨rfl, rfl⟩, _, _, ⟨hstr.cstr, rfl⟩, (), st₂, h₂, _, st₃, h₃, (), st₄, h₄, trivial, rfl⟩
  · have hcalls : calls (.container .variant t.render [j]) =
        [] ++ ([.openContainer .variant (chars s.bytes)] ++ (calls j ++ [.closeContainer])) := by
      simp [calls, callsAll, hbs]
    rw [hcalls]
    exact hdone₁.trans (hd₂.trans (hd₃.trans hd₄))

theorem appendVariantType_sound (hsd : Accepts sd)
    (hrec : ∀ x, x.depth < v.depth → Walks rt rec x)
    (h : appendVariantType rt sd rec p v st = .ok q st') : ∃ i, denote rt .variant v = some i := by
  rw [appendVariantType] at h
  simp only [run_bind] at h
  obtain ⟨xs, st, hxs, h⟩ := h
  obtain ⟨htuple, rfl⟩ := run_getter.mp hxs
  obtain rfl : v = .tuple xs := by
    cases v with
    | tuple ys => rw [Option.some.inj htuple]
    | _ => simp at htuple
  rcases xs with _ | ⟨sig, _ | ⟨x, _ | ⟨y, ys⟩⟩⟩
  · exact absurd h run_panic
  · exact absurd h run_panic
  · cases sig with
    | string bs =>
      cases hs : janetGetcbytes bs with
      | none => simp only [hs] at h; exact absurd h run_panic
      | some s =>
        obtain rfl := getcbytes_eq_some.mp hs
        simp only [hs, run_bind, run_allocate, run_cstr, run_pure] at h
        obtain ⟨_, _, ⟨rfl, rfl⟩, _, _, ⟨hcstr, rfl⟩, _, st₂, h₂, _, _, h₃, _⟩ := h
        have hnul : '\x00' ∉ chars s.bytes := fun hmem => s.nul_free (nul_mem_chars.mp hmem)
        have hstr := alloc_str (m := st.mem) (r := []) hnul
        obtain rfl := Option.some.inj (hstr.cstr.symm.trans hcstr)
        obtain ⟨hopen, hd₂⟩ := call_done h₂
        obtain ⟨t, ht⟩ : ∃ t : Ty, chars s.bytes = t.render := hsd.open_iff.mp hopen
        have hq := (ht ▸ hstr.mono hd₂.mem).append_nil
        obtain ⟨j, hj, _⟩ := (hrec x (depth_indexed rfl (by simp))).exact hq h₃
        exact ⟨_, by rw [denote_variant_eq, parse_eq_some.mpr ht, Option.bind_some, hj, Option.map_some]⟩
    | _ => exact absurd h run_panic
  · exact absurd h run_panic

/-! ### The walker -/

theorem appendBranch_variant :
    appendBranch rt sd rec 'v' p v = appendVariantType rt sd rec p v := by
  rw [appendBranch, if_neg (by decide), if_pos rfl]

theorem appendBranch_struct : appendBranch rt sd rec '(' p v = appendStructType rt sd rec p v := by
  rw [appendBranch, if_neg (by decide), if_neg (by decide), if_pos rfl]

theorem appendBranch_array : appendBranch rt sd rec 'a' p v = appendArrayType rt sd rec p v := by
  rw [appendBranch, if_neg (by decide), if_neg (by decide), if_neg (by decide), if_pos rfl]

/-- Each branch meets the specification if the call-backs meet it on smaller values. -/
theorem appendBranch_walks (hsd : Accepts sd) (hrec : ∀ x, x.depth < v.depth → Walks rt rec x) :
    Walks rt (fun p x => cursor p >>= fun ch => appendBranch rt sd rec ch p x) v where
  complete {st p t r i} hs hv := by
    obtain ⟨c, w, hc, _⟩ := t.render_head
    have hread : st.mem.read p = some c := by rw [hs.read, hc]; rfl
    suffices hbranch : ∃ st', appendBranch rt sd rec c p v st = .ok (p.add (t.render.length - 1)) st' ∧
        Done st st' (calls i) by
      obtain ⟨st', hrun, hdone⟩ := hbranch
      exact ⟨st', run_bind.mpr ⟨c, st, run_cursor.mpr ⟨hread, rfl⟩, hrun⟩, hdone⟩
    cases t with
    | basic k =>
      rw [Ty.render] at hc
      obtain ⟨rfl, rfl⟩ := List.cons.inj hc
      rw [denote] at hv
      obtain ⟨x, hx, rfl⟩ := Option.map_eq_some_iff.mp hv
      obtain ⟨st', hrun, hdone⟩ := appendBasicType_ok hsd hread hx
      refine ⟨st', ?_, by rw [calls]; exact hdone⟩
      rw [appendBranch, if_pos (isBasicType_char k)]
      exact run_bind.mpr ⟨(), st', hrun, run_pure.mpr ⟨rfl, rfl⟩⟩
    | variant =>
      rw [Ty.render] at hc
      obtain ⟨rfl, rfl⟩ := List.cons.inj hc
      rw [appendBranch_variant]
      exact appendVariantType_complete hsd hrec hv
    | array t =>
      rw [Ty.render] at hc
      obtain ⟨rfl, _⟩ := List.cons.inj hc
      rw [appendBranch_array]
      cases ht : isByte t with
      | true => exact appendBytes_complete hsd ht hs hv
      | false => exact appendArrayType_complete hsd hrec ht hs hv
    | dict k t =>
      rw [Ty.render] at hc
      obtain ⟨rfl, _⟩ := List.cons.inj hc
      rw [appendBranch_array]
      exact appendDict_complete hsd hrec hs hv
    | struct t ts =>
      rw [Ty.render] at hc
      obtain ⟨rfl, _⟩ := List.cons.inj hc
      rw [appendBranch_struct]
      exact appendStructType_complete hsd hrec hs hv
  sound {st st' p q s} hs hne h := by
    obtain ⟨c, st, hread, h⟩ := run_bind.mp h
    obtain ⟨hread, rfl⟩ := run_cursor.mp hread
    cases s with
    | nil => exact absurd rfl hne
    | cons a s =>
      obtain rfl : a = c := Option.some.inj (hs.cons.1.symm.trans hread)
      rw [appendBranch] at h
      split at h
      · next hbasic =>
        rcases isBasicType_iff.mp hbasic with ⟨k, rfl⟩ | rfl
        · obtain ⟨_, st₁, hrun, _⟩ := run_bind.mp h
          obtain ⟨x, hx, _⟩ := appendBasicType_done hread hrun
          exact ⟨.basic k, s, .basic x, by rw [Ty.render]; rfl, by rw [denote, hx, Option.map_some]⟩
        · exact absurd List.mem_cons_self hs.1
      · split at h
        · next hv =>
          subst hv
          obtain ⟨i, hi⟩ := appendVariantType_sound hsd hrec h
          exact ⟨.variant, s, i, by rw [Ty.render]; rfl, hi⟩
        · split at h
          · next hp => subst hp; exact appendStructType_sound hsd hrec hs h
          · split at h
            · next ha => subst ha; exact appendArray_sound hsd hrec hs h
            · exact absurd h run_panic

theorem silent_set (p : Ptr) (n : ℕ) : Silent (dbusErrctxSet p n) := by
  intro st
  refine ⟨_, rfl, ?_, ?_⟩ <;> rfl

theorem silent_exit : Silent dbusErrctxExit := fun _ => ⟨_, rfl, rfl, rfl⟩

theorem silent_inc : Silent dbusErrctxInc := fun _ => ⟨_, rfl, rfl, rfl⟩

theorem silent_reset : Silent dbusErrctxReset := fun _ => ⟨_, rfl, rfl, rfl⟩

theorem Silent.run {enter : Append Unit} (h : Silent enter) (st : AppendState) :
    ∃ st', enter st = .ok () st' ∧ Done st st' [] := by
  obtain ⟨st', hrun, _⟩ := h st
  exact ⟨st', hrun, h.done hrun⟩

/-- The error context does not matter to success. -/
theorem appendCompleteBody_walks (hsd : Accepts sd) (hrec : ∀ x, x.depth < v.depth → Walks rt rec x) :
    Walks rt (appendCompleteBody rt sd rec) v where
  complete {st p t r i} hs hv := by
    obtain ⟨st₁, h₁, hd₁⟩ := (silent_set p (span t)).run st
    obtain ⟨st₂, h₂, hd₂⟩ := (appendBranch_walks hsd hrec).complete (hs.mono hd₁.mem) hv
    obtain ⟨ch, st₀, hch, hbranch⟩ := run_bind.mp h₂
    obtain ⟨st₃, h₃, hd₃⟩ := silent_exit.run st₂
    have hdone := hd₁.trans (hd₂.trans hd₃)
    rw [List.nil_append, List.append_nil] at hdone
    refine ⟨st₃, ?_, hdone⟩
    rw [appendCompleteBody]
    simp only [run_bind, run_scan, run_pure]
    exact ⟨_, st, ⟨_, hs.cstr, spanNextType_render t r, rfl⟩, (), st₁, h₁, ch, st₀, hch, _, st₂, hbranch,
      (), st₃, h₃, rfl, rfl⟩
  sound {st st' p q s} hs hne h := by
    rw [appendCompleteBody] at h
    simp only [run_bind, run_scan, run_pure] at h
    obtain ⟨len, st, ⟨_, _, _, rfl⟩, _, st₁, h₁, ch, st₀, hch, _, st₂, hbranch, _⟩ := h
    have hd₁ := (silent_set p len).done h₁
    exact (appendBranch_walks hsd hrec).sound (hs.mono hd₁.mem) hne
      (run_bind.mpr ⟨ch, st₀, hch, hbranch⟩)

end branches

/-- `append_complete_type` does what it has to do, by induction on the depth it may go to. -/
theorem appendCompleteType_walks (hsd : Accepts sd) : ∀ (n : ℕ) (v : Janet), v.depth < n →
    Walks rt (appendCompleteType rt sd n) v
  | 0, _, h => absurd h (Nat.not_lt_zero _)
  | n + 1, _, h => appendCompleteBody_walks hsd fun x hx =>
      appendCompleteType_walks hsd n x (Nat.lt_of_lt_of_le hx (Nat.le_of_lt_succ h))

theorem appendArgs_walks (hsd : Accepts sd) {args : List Janet} :
    ∀ x ∈ args, Walks rt (appendCompleteType rt sd (depthAll args + 1)) x := fun x hx =>
  appendCompleteType_walks hsd _ x (Nat.lt_succ_of_le (depth_le_all hx))

theorem denoteFields_length : ∀ {ts : List Ty} {vs : List Janet} {is : List Item},
    denoteFields rt ts vs = some is → ts.length = vs.length
  | [], [], _, _ => rfl
  | [], _ :: _, _, h => by simp [denoteFields] at h
  | _ :: _, [], _, h => by simp [denoteFields] at h
  | t :: ts, v :: vs, _, h => by
    rw [denoteFields] at h
    obtain ⟨_, _, h⟩ := Option.bind_eq_some_iff.mp h
    obtain ⟨_, hjs, _⟩ := Option.map_eq_some_iff.mp h
    rw [List.length_cons, List.length_cons, denoteFields_length hjs]

theorem appendData_complete (hsd : Accepts sd) {ts : List Ty} {args : List Janet} {is : List Item}
    (hs : Str st.mem p (renderAll ts)) (hargs : denoteFields rt ts args = some is) :
    ∃ st', appendData rt sd p args st = .ok (p.add (renderAll ts).length) st' ∧
      Done st st' (callsAll is) ∧ Str st'.mem (p.add (renderAll ts).length) [] := by
  obtain ⟨st₁, h₁, hd₁⟩ := silent_reset.run st
  obtain ⟨st₂, h₂, hd₂⟩ := appendLoop_complete (r := []) silent_inc (appendArgs_walks hsd)
    (hs.mono hd₁.mem).append_nil hargs
  have hdone := hd₁.trans hd₂
  have hend : Str st₂.mem (p.add (renderAll ts).length) [] := (hs.mono hdone.mem).append_nil.append
  refine ⟨st₂, ?_, hdone, hend⟩
  rw [appendData]
  simp only [run_bind, run_cursor, run_panicIf, run_pure]
  exact ⟨(), st₁, h₁, _, st₂, h₂, _, st₂, ⟨hend.nil_read, rfl⟩, (), st₂, ⟨by simp, rfl⟩, rfl, rfl⟩

theorem appendData_sound (hsd : Accepts sd) {args : List Janet} (hs : Str st.mem p s)
    (h : appendData rt sd p args st = .ok q st') :
    ∃ ts is, s = renderAll ts ∧ denoteFields rt ts args = some is := by
  rw [appendData] at h
  simp only [run_bind, run_cursor, run_panicIf, run_pure] at h
  obtain ⟨_, st₁, h₁, z, _, h₂, _, st₂, ⟨hz, rfl⟩, _, _, ⟨hnul, _⟩, _⟩ := h
  have hd₁ := silent_reset.done h₁
  obtain ⟨ts, rest, is, hsplit, his, _, hstop⟩ := appendLoop_sound silent_inc (appendArgs_walks hsd)
    (hs.mono hd₁.mem) h₂
  obtain rfl := hstop.eq_nil (by rw [hz, not_not.mp hnul])
  exact ⟨ts, is, by rw [hsplit, List.append_nil], his⟩

/-- `append_data` succeeds exactly on a sequence of complete types with a conforming value for each,
    and then it has made the calls of the reference encoding and stands at the end. -/
theorem appendData_iff (rt : Runtime) (sd : SdBus) (hsd : Accepts sd) (st : AppendState) (p : Ptr)
    (sig : List Char) (args : List Janet) (hs : Str st.mem p sig) :
    ((∃ q st', appendData rt sd p args st = .ok q st') ↔ ∃ ts, ts.length = args.length ∧
      sig = renderAll ts ∧ (denoteFields rt ts args).isSome = true) ∧
    ∀ q st', appendData rt sd p args st = .ok q st' → ∀ ts is, sig = renderAll ts →
      denoteFields rt ts args = some is →
        st'.calls = st.calls ++ callsAll is ∧ q = p.add sig.length ∧ Str st'.mem q [] := by
  refine ⟨⟨?_, ?_⟩, ?_⟩
  · rintro ⟨q, st', h⟩
    obtain ⟨ts, is, hsig, his⟩ := appendData_sound hsd hs h
    exact ⟨ts, denoteFields_length his, hsig, by rw [his]; rfl⟩
  · rintro ⟨ts, _, rfl, his⟩
    obtain ⟨is, his⟩ := Option.isSome_iff_exists.mp his
    obtain ⟨st', h, _⟩ := appendData_complete hsd hs his
    exact ⟨_, st', h⟩
  · rintro q st' h ts is rfl his
    obtain ⟨st₁, h₁, hdone, hend⟩ := appendData_complete hsd hs his
    obtain ⟨rfl, rfl⟩ := EStateM.Result.ok.inj (h₁.symm.trans h)
    exact ⟨hdone.calls_eq, rfl, hend⟩

/-- An sd-bus that checks contents and has no other complaints. -/
def checkingBus : SdBus
  | _, .openContainer k s => if Fits k s then 0 else -22
  | _, _ => 0

theorem checkingBus_accepts : Accepts checkingBus := by
  intro hist c
  cases c with
  | openContainer k s =>
    by_cases h : Fits k s
    · simp [checkingBus, h]
    · simp [checkingBus, h]
  | _ => simp [checkingBus]

/-- A runtime that parses no numbers and prints nothing. -/
def silentRuntime : Runtime := ⟨fun _ => none, fun _ => none, fun _ => "", fun _ => "", fun _ => ""⟩

/-- Nothing but a signature in memory. -/
def initial (sig : List Char) : AppendState :=
  ⟨(Mem.empty.alloc (sig ++ ['\x00'])).2, ⟨none, 0, none, 0, 0, 0⟩, []⟩

theorem initial_str {sig : List Char} (h : '\x00' ∉ sig) : Str (initial sig).mem ⟨0, 0⟩ sig :=
  alloc_str (m := Mem.empty) (r := []) h

/-- An array of one string. -/
theorem appendData_iff_strings : ∃ q st',
    appendData silentRuntime checkingBus ⟨0, 0⟩ [.array [.string [104, 105]]] (initial ['a', 's']) =
      .ok q st' ∧ st'.calls = [.openContainer .array ['s'],
        .appendBasic (.string ⟨[104, 105], by decide⟩), .closeContainer] := by
  have hs : Str (initial ['a', 's']).mem ⟨0, 0⟩ ['a', 's'] := initial_str (by decide)
  have hspec := appendData_iff silentRuntime checkingBus checkingBus_accepts (initial ['a', 's']) ⟨0, 0⟩
    ['a', 's'] [.array [.string [104, 105]]] hs
  obtain ⟨q, st', h⟩ := hspec.1.mpr ⟨[.array (.basic .string)], rfl, rfl, rfl⟩
  exact ⟨q, st', h, (hspec.2 q st' h [.array (.basic .string)] _ rfl rfl).1⟩

end JanetSdbus.Message
