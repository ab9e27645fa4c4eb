import Octet.Proofs.Allocation
import Octet.Proofs.LiveRange
import Octet.Proofs.Reading

/-!
# Functions that were read from a listing

What a listing has to satisfy to be read is checked while it is read, and later stages rely on it: a
variable carries its position among the variables of its function, operands mention declared
variables only, every jump goes to a label that is placed in the same function, and the live ranges
are those of the analysis. The body of a routine is inverted once; each fact is read off the
relation between its entries and the instructions of the function.

## Main definitions

* `Function.JumpsPlaced` — every anchor that an instruction may go to is placed
* `Listing.NumberedFrom` — parameters carry their position
* `Listing.Routine.Reads` — how a function is read as the body of a routine

## Main results

* `Listing.bodies_of_build`, `Listing.function_of_build` — every function of a program was read as
  the body of a routine, and the literals of a program are those of its code
* `Listing.indexed_of_build`, `Listing.ranges_of_build`, `Listing.jumpsPlaced_of_build`,
  `Listing.declared_of_build`, `Listing.anchor_of_build`, `Listing.labels_nodup_of_build` — what
  holds of it
* `Listing.nodup_of_build` — the functions of a program have names of their own
-/

namespace Octet

/-- Every anchor that an instruction may go to is placed in the function. -/
def Function.JumpsPlaced (f : Function) : Prop :=
  ∀ i ∈ f.code, ∀ a, i.target? = some a → Inst.label a ∈ f.code

/-- The anchor that an instruction places. -/
def Inst.placed? : Inst → Option Anchor
  | .label a => some a
  | _ => none

namespace Listing

/-! ### Signatures and variables -/

section Inversions

variable {function : String} {d : Declaration} {ds : List Declaration} {n : Nat} {r : Routine}
  {σ : Signature}

theorem parameters_cons {ps : List Parameter} (h : parameters function n (d :: ds) = .ok ps) :
    ∃ t qs, ((∀ size, t ≠ .struct size) ∧ t ≠ .void) ∧ parameters function (n + 1) ds = .ok qs ∧
      ps = ⟨n, d.name, t, function ++ "_" ++ d.name⟩ :: qs := by
  simp only [parameters] at h
  split at h
  · cases h
  · cases h
  · cases h
  · rename_i t hstruct hvoid _
    obtain ⟨qs, hqs, h⟩ := Except.bind_eq_ok_iff.mp h
    exact ⟨t, qs, ⟨hstruct, hvoid⟩, hqs, (Except.ok.inj h).symm⟩

theorem parameters_of_signature (h : r.signature = .ok σ) :
    σ.name = r.name ∧ parameters r.name 0 r.params = .ok σ.params := by
  unfold Routine.signature at h
  split at h
  · cases h
  · obtain ⟨ps, hps, h⟩ := Except.bind_eq_ok_iff.mp h
    cases h
    exact ⟨rfl, hps⟩

theorem localVariables_cons {vs all : List Variable}
    (h : localVariables function vs (d :: ds) = .ok all) :
    ∃ t, localVariables function
      (vs ++ [⟨vs.length, false, d.name, function ++ "_" ++ d.name, t, none⟩]) ds =
      .ok all := by
  simp only [localVariables] at h
  split at h
  · cases h
  · split at h
    · cases h
    · exact ⟨_, h⟩

theorem globalVariables_cons {vs : List Variable} (h : globalVariables n (d :: ds) = .ok vs) :
    ∃ t ws, globalVariables (n + 1) ds = .ok ws ∧
      vs = ⟨n, true, d.name, d.name, t, none⟩ :: ws := by
  simp only [globalVariables] at h
  split at h
  · cases h
  · obtain ⟨ws, hws, h⟩ := Except.bind_eq_ok_iff.mp h
    exact ⟨_, ws, hws, (Except.ok.inj h).symm⟩

theorem signatures_cons {callees all : List Signature} {rs : List Routine}
    (h : signatures callees (r :: rs) = .ok all) :
    ∃ s, r.signature = .ok s ∧ ¬ callees.any (·.name == s.name) = true ∧
      signatures (callees ++ [s]) rs = .ok all := by
  obtain ⟨s, hs, h⟩ := Except.bind_eq_ok_iff.mp h
  split at h
  · cases h
  · rename_i hfresh
    exact ⟨s, hs, hfresh, h⟩

/-- **What a program was read from.** -/
theorem build_cases {l : Listing} {p : Program} (h : l.build = .ok p) :
    ∃ callees, globalVariables 0 l.globals = .ok p.globals ∧
      signatures p.externs l.functions = .ok callees ∧
      StateT.run ((l.functions.zip (callees.drop p.externs.length)).mapM fun x =>
        x.1.function p.globals callees x.2) [] =
        .ok (p.functions, p.strings) := by
  obtain ⟨globals, hglobals, h⟩ := Except.bind_eq_ok_iff.mp h
  obtain ⟨externs, -, h⟩ := Except.bind_eq_ok_iff.mp h
  obtain ⟨callees, hcallees, h⟩ := Except.bind_eq_ok_iff.mp h
  obtain ⟨⟨functions, strings⟩, hfs, h⟩ := Except.bind_eq_ok_iff.mp h
  cases h
  exact ⟨callees, hglobals, hcallees, hfs⟩

end Inversions

/-- Parameters carry their position. -/
def NumberedFrom (n : Nat) (ps : List Parameter) : Prop :=
  ∀ (i : Nat) (p : Parameter), ps[i]? = some p → p.index = n + i

theorem numberedFrom_parameters {function : String} {ds : List Declaration} {n : Nat}
    {ps : List Parameter} (h : parameters function n ds = .ok ps) : NumberedFrom n ps := by
  induction ds generalizing n ps with
  | nil =>
    cases h
    intro i p hp
    simp at hp
  | cons d ds ih =>
    obtain ⟨t, qs, -, hqs, rfl⟩ := parameters_cons h
    intro i p hp
    cases i with
    | zero =>
      cases hp
      rfl
    | succ i =>
      have := ih hqs i p (by simpa using hp)
      omega

theorem numbered_signature {r : Routine} {s : Signature} (h : r.signature = .ok s) :
    NumberedFrom 0 s.params :=
  numberedFrom_parameters (parameters_of_signature h).2

/-- The signatures of functions come after those given, one for each function in order. -/
theorem signatures_eq {callees all : List Signature} {rs : List Routine}
    (h : signatures callees rs = .ok all) :
    ∃ own, all = callees ++ own ∧ List.Forall₂ (fun r σ => r.signature = .ok σ) rs own := by
  induction rs generalizing callees with
  | nil =>
    cases h
    exact ⟨[], by simp, .nil⟩
  | cons r rs ih =>
    obtain ⟨s, hs, -, h⟩ := signatures_cons h
    obtain ⟨own, rfl, hown⟩ := ih h
    exact ⟨s :: own, by simp, .cons hs hown⟩

/-- No two functions have one name, and none has that of a routine declared before. -/
theorem nodup_of_signatures {callees all : List Signature} {rs : List Routine}
    (h : signatures callees rs = .ok all) :
    (rs.map (·.name)).Nodup ∧ ∀ r ∈ rs, ∀ s ∈ callees, s.name ≠ r.name := by
  induction rs generalizing callees with
  | nil => simp
  | cons r rs ih =>
    obtain ⟨s, hs, hfresh, h⟩ := signatures_cons h
    have hname := (parameters_of_signature hs).1
    obtain ⟨hnodup, hapart⟩ := ih h
    refine ⟨List.nodup_cons.mpr ⟨?_, hnodup⟩, ?_⟩
    · intro hmem
      obtain ⟨q, hq, hqr⟩ := List.mem_map.mp hmem
      exact hapart q hq s (by simp) (hname.trans hqr.symm)
    · rintro q (_ | ⟨_, hq⟩) c hc
      · intro heq
        exact hfresh (List.any_eq_true.mpr ⟨c, hc, by simp [heq, hname]⟩)
      · exact hapart q hq c (List.mem_append_left _ hc)

theorem positioned_parameters {ps : List Parameter} (h : NumberedFrom 0 ps) :
    Positioned (ps.map parameterVariable) := by
  intro i v hv
  rw [List.getElem?_map] at hv
  obtain ⟨p, hp, rfl⟩ := Option.map_eq_some_iff.mp hv
  exact ⟨by simpa [parameterVariable] using h i p hp, rfl⟩

theorem positioned_localVariables {function : String} {ds : List Declaration}
    {vs all : List Variable}
    (hvs : Positioned vs) (h : localVariables function vs ds = .ok all) : Positioned all := by
  induction ds generalizing vs with
  | nil =>
    cases h
    exact hvs
  | cons d ds ih =>
    obtain ⟨t, h⟩ := localVariables_cons h
    refine ih ?_ h
    intro i v hv
    rcases Nat.lt_trichotomy i vs.length with hi | rfl | hi
    · rw [List.getElem?_append_left hi] at hv
      exact hvs i v hv
    · simp only [List.getElem?_concat_length, Option.some.injEq] at hv
      exact ⟨hv ▸ rfl, hv ▸ rfl⟩
    · rw [List.getElem?_eq_none (by simp; omega)] at hv
      simp at hv

theorem prefix_localVariables {function : String} {ds : List Declaration} {vs all : List Variable}
    (h : localVariables function vs ds = .ok all) : vs <+: all := by
  induction ds generalizing vs with
  | nil =>
    cases h
    exact List.prefix_rfl
  | cons d ds ih =>
    obtain ⟨t, h⟩ := localVariables_cons h
    exact (List.prefix_append _ _).trans (ih h)

/-! ### Labels -/

section Labels

variable {s : Scope} {e : Entry} {es : List Entry} {i : Inst} {is : List Inst} {a : Anchor}

theorem Scope.PlacedOrRead.target (h : s.PlacedOrRead e i) (ha : i.target? = some a) :
    e.target ∈ namedLabels [e] ∧ e.target.isEmpty = false ∧ a = s.anchor e.target := by
  unfold Scope.PlacedOrRead at h
  split at h
  · rename_i hlabel
    have hjump : i.operator.isJump = true := by
      cases i with
      | jump | compare | decJump => rfl
      | _ => cases ha
    exact ⟨by simp_all [namedLabels, h.operator], h.target a ha⟩
  · rw [h] at ha
    cases ha

theorem Scope.PlacedOrRead.anchor (h : s.PlacedOrRead e i) :
    i.anchor? = i.target? ∨ (e.label.isEmpty = false ∧ i.anchor? = some (s.anchor e.label)) := by
  unfold Scope.PlacedOrRead at h
  split at h
  · cases i with
    | label => exact absurd rfl h.placed
    | _ => exact .inl rfl
  · rename_i hlabel
    exact .inr ⟨by simpa using hlabel, by rw [h]; rfl⟩

theorem Scope.ReadAs.placed?_eq_none (h : s.ReadAs e i) : i.placed? = none := by
  cases i with
  | label => exact absurd rfl h.placed
  | _ => rfl

/-- The code read from entries goes to labels that the entries name. -/
theorem Scope.goes_of_forall₂ (h : List.Forall₂ s.PlacedOrRead es is) (hi : i ∈ is)
    (ha : i.target? = some a) :
    ∃ l ∈ namedLabels es, l.isEmpty = false ∧ a = s.anchor l := by
  obtain ⟨e, he, hei⟩ := exists_of_forall₂_right h hi
  obtain ⟨hnamed, htarget⟩ := hei.target ha
  obtain ⟨e', he', hl⟩ := List.mem_filterMap.mp hnamed
  obtain rfl := List.mem_singleton.mp he'
  exact ⟨e'.target, List.mem_filterMap.mpr ⟨e', he, hl⟩, htarget⟩

/-- The code read from entries places all labels that they place. -/
theorem Scope.places_of_forall₂ (h : List.Forall₂ s.PlacedOrRead es is) (he : e ∈ es)
    (hlabel : e.label.isEmpty = false) : Inst.label (s.anchor e.label) ∈ is := by
  obtain ⟨i, hi, hei⟩ := exists_of_forall₂_left h he
  simp only [Scope.PlacedOrRead, hlabel, Bool.false_eq_true, if_false] at hei
  exact hei ▸ hi

/-- **No label is placed twice.** -/
theorem Scope.gives_labels (s : Scope) (es : List Entry) (n : Nat) (defined : List String) :
    Reader.Gives (s.code n defined es) fun is =>
      ∃ labels : List String, is.filterMap Inst.placed? = labels.map s.anchor ∧ labels.Nodup ∧
        ∀ l ∈ labels, l ∉ defined := by
  induction es generalizing n defined with
  | nil => exact Reader.gives_pure ⟨[], rfl, .nil, by simp⟩
  | cons e es ih =>
    unfold Scope.code
    refine Reader.gives_ite ?_ ?_
    · refine Reader.Gives.bind (Q := fun i => s.ReadAs e i) ?_ fun i hi =>
        (ih _ _).bind fun is his => ?_
      · exact fun t i u h => (s.meets_entry e).gives (fun _ _ h => h.1) t i u
          (Except.ok_of_mapError h)
      · obtain ⟨labels, hlabels, hrest⟩ := his
        refine Reader.gives_pure ⟨labels, ?_, hrest⟩
        rw [List.filterMap_cons, hi.placed?_eq_none]
        exact hlabels
    · split
      · exact Reader.gives_throw
      · rename_i hfresh
        refine (ih _ _).bind fun is his => ?_
        obtain ⟨labels, hlabels, hnodup, hothers⟩ := his
        have hnot : e.label ∉ labels := fun h => hothers _ h (.head _)
        refine Reader.gives_pure ⟨e.label :: labels, by simp [Inst.placed?, hlabels],
          List.nodup_cons.mpr ⟨hnot, hnodup⟩, ?_⟩
        rintro l (_ | ⟨_, hl⟩)
        · simpa using hfresh
        · exact fun h => hothers l hl (.tail _ h)

end Labels

/-! ### Operands -/

section Operands

variable {s : Scope} {e : Entry} {i : Inst} {o : Operand} {v : Variable}

/-- A name of the scope may mean the variable. -/
def Scope.Declares (s : Scope) (v : Variable) : Prop := v ∈ s.locals ∨ v ∈ s.globals

theorem mem_of_lastNamed? {vs : List Variable} {name : String} (h : lastNamed? vs name = some v) :
    v ∈ vs :=
  List.mem_reverse.mp (List.mem_of_find?_eq_some h)

theorem Scope.declares_of_find? {name : String} (h : s.find? name = some v) : s.Declares v := by
  unfold Scope.find? at h
  rcases Option.or_eq_some_iff.mp h with h | ⟨-, h⟩
  · exact .inl (mem_of_lastNamed? h)
  · exact .inr (mem_of_lastNamed? h)

theorem Scope.Means.declares {explicit surroundings : Option Ty} {chars : List Char}
    (h : s.Means explicit surroundings chars o) (hv : o.mentioned? = some v) : s.Declares v := by
  cases h with
  | int | address => cases hv
  | deref hw | whole _ hw | slice _ hw => exact Option.some.inj hv ▸ s.declares_of_find? hw

/-- **The variable of an operand is one of the scope.** -/
theorem Scope.Reads.declares {text : String} (h : s.Reads text o) (hv : o.mentioned? = some v) :
    s.Declares v := by
  obtain ⟨_, _, _, -, rfl⟩ | ⟨-, _, _, -, hmeans⟩ := h
  · cases hv
  · exact hmeans.declares hv

theorem Scope.PlacedOrRead.readings (h : s.PlacedOrRead e i) {text : String}
    (ho : (text, o) ∈ i.readings e) :
    s.Reads text o := by
  unfold Scope.PlacedOrRead at h
  split at h
  · exact h.readings (text, o) ho
  · simp [h, Inst.readings, Inst.dest?, Inst.left?, Inst.right?, Inst.args] at ho

/-- **Each operand of an instruction was read from a text of its entry.** -/
theorem Scope.PlacedOrRead.reads (h : s.PlacedOrRead e i) (ho : o ∈ i.operands) :
    ∃ text ∈ e.texts, s.Reads text o := by
  have hoperands : (i.readings e).map (·.2) = i.operands := by
    unfold Scope.PlacedOrRead at h
    split at h
    · exact h.operands
    · simp [h, Inst.readings, Inst.operands, Inst.dest?, Inst.left?, Inst.right?, Inst.args]
  rw [← hoperands] at ho
  obtain ⟨⟨text, _⟩, hx, rfl⟩ := List.mem_map.mp ho
  refine ⟨text, ?_, h.readings hx⟩
  simp only [Inst.readings, List.mem_append, List.mem_map, Prod.mk.injEq] at hx
  rcases hx with ((⟨_, -, rfl, -⟩ | ⟨_, -, rfl, -⟩) | ⟨_, -, rfl, -⟩) | hx
  · simp [Entry.texts]
  · simp [Entry.texts]
  · simp [Entry.texts]
  · simp [Entry.texts, (List.of_mem_zip hx).1]

end Operands

/-! ### Functions -/

/-- **How a function is read as the body of a routine** whose signature is known. -/
structure Routine.Reads (r : Routine) (globals : List Variable) (callees : List Signature)
    (σ : Signature) (f : Function) : Prop where
  vars : localVariables r.name (σ.params.map parameterVariable) r.vars = .ok f.vars
  code : List.Forall₂ (Scope.PlacedOrRead ⟨r.name, σ.result, globals, f.vars, callees⟩)
    r.code f.code
  once : (f.code.filterMap Inst.placed?).Nodup
  placed : ∀ l ∈ namedLabels r.code, ∃ e ∈ r.code, e.label = l
  analyzed : f = Function.analyzed ⟨r.name, σ.params, σ.result, f.vars, f.code, []⟩

theorem Scope.anchor_injective (s : Scope) : s.anchor.Injective := by
  intro label label' h
  have hchars := congrArg (fun a : Anchor => a.name.toList) h
  exact String.toList_inj.mp (by simpa [Scope.anchor, String.toList_append] using hchars)

section Functions

variable {l : Listing} {r : Routine} {f : Function} {globals : List Variable}
  {callees : List Signature} {σ : Signature} {p : Program}

theorem Routine.meets_function :
    Reader.Meets (r.function globals callees σ) fun f new =>
      r.Reads globals callees σ f ∧ new.Perm (f.code.flatMap Inst.literals) := by
  unfold Routine.function
  refine (Reader.Meets.lift (P := fun vs new =>
    localVariables r.name (σ.params.map parameterVariable) r.vars = .ok vs ∧
      new = []) ?_).bind fun vs _ hvs => ?_
  · exact fun vs hvs => ⟨hvs, rfl⟩
  obtain ⟨hvs, rfl⟩ := hvs
  refine ((Scope.meets_code _ _ _ _).and (Scope.gives_labels _ _ _ _)).bind fun code _ hcode => ?_
  obtain ⟨⟨labels, hlabels, hnodup, -⟩, hcode, hliterals⟩ := hcode
  split
  · exact .thrown
  · rename_i hnamed
    refine .pure
      ⟨⟨hvs, hcode, hlabels ▸ hnodup.map (Scope.anchor_injective _), fun l hl => ?_, rfl⟩, ?_⟩
    · simpa using List.find?_eq_none.mp hnamed l hl
    · exact (List.append_nil _).symm ▸ hliterals

theorem Routine.Reads.signature_eq (h : r.Reads globals callees σ f) (hσ : r.signature = .ok σ) :
    f.signature = σ := by
  rw [h.analyzed, ← (parameters_of_signature hσ).1]
  rfl

theorem Routine.reads_of_zip {rs : List Routine} {own : List Signature} {fs : List Function}
    (hown : List.Forall₂ (fun r σ => r.signature = .ok σ) rs own)
    (hfs : List.Forall₂ (fun x f => x.1.Reads globals callees x.2 f) (rs.zip own) fs) :
    List.Forall₂ (fun r f => ∃ σ, r.signature = .ok σ ∧ r.Reads globals callees σ f) rs fs ∧
      own = fs.map (·.signature) := by
  induction hown generalizing fs with
  | nil =>
    cases hfs
    exact ⟨.nil, rfl⟩
  | cons hσ _ ih =>
    cases hfs with
    | cons hf hfs =>
      obtain ⟨hbodies, rfl⟩ := ih hfs
      exact ⟨.cons ⟨_, hσ, hf⟩ hbodies, by rw [List.map_cons, hf.signature_eq hσ]⟩

/-- **The functions of a program are the bodies of its routines**, read one after another. Its
literals are those of the code, numbered from one. -/
theorem bodies_of_build (h : l.build = .ok p) :
    List.Forall₂ (fun r f => ∃ σ, r.signature = .ok σ ∧
      r.Reads p.globals (p.externs ++ p.functions.map (·.signature)) σ f) l.functions p.functions ∧
    p.strings.Perm (p.functions.flatMap fun f => f.code.flatMap Inst.literals) ∧
    p.strings.map (·.1) = (List.range p.strings.length).map literalLabel := by
  obtain ⟨callees, -, hcallees, hfs⟩ := build_cases h
  obtain ⟨own, rfl, hown⟩ := signatures_eq hcallees
  rw [List.drop_left] at hfs
  obtain ⟨new, hnew, hnumbered, hbodies, hliterals⟩ :=
    Reader.Meets.mapM (fun x : Routine × Signature => x.1.meets_function (σ := x.2)) _ _ _ _ hfs
  obtain rfl : p.strings = new := hnew
  obtain ⟨hbodies, rfl⟩ := Routine.reads_of_zip hown hbodies
  exact ⟨hbodies, hliterals, by rw [hnumbered, List.length_nil, List.range_eq_range']⟩

theorem function_of_build (h : l.build = .ok p) (hf : f ∈ p.functions) :
    ∃ r ∈ l.functions, ∃ σ, r.signature = .ok σ ∧
      r.Reads p.globals (p.externs ++ p.functions.map (·.signature)) σ f :=
  exists_of_forall₂_right (bodies_of_build h).1 hf

/-- **The variable of a parameter** is found by the position of that. -/
theorem Routine.Reads.parameterVariable?_eq (h : r.Reads globals callees σ f)
    (hσ : r.signature = .ok σ) {q : Parameter}
    (hq : q ∈ f.params) : f.parameterVariable? q = some (parameterVariable q) := by
  obtain rfl : f.signature = σ := h.signature_eq hσ
  have hparams : NumberedFrom 0 f.params := numbered_signature hσ
  have hvar : ∀ {i : Nat} {p : Parameter}, f.params[i]? = some p →
      f.vars[i]? = some (parameterVariable p) := by
    intro i p hp
    obtain ⟨locals, hlocals⟩ := prefix_localVariables h.vars
    have hmap : (f.signature.params.map parameterVariable)[i]? = some (parameterVariable p) :=
      (List.getElem?_map ..).trans (congrArg (Option.map parameterVariable) hp)
    rw [← hlocals, List.getElem?_append_left (List.getElem?_eq_some_iff.mp hmap).1]
    exact hmap
  obtain ⟨i, hi⟩ := List.mem_iff_getElem?.mp hq
  have hindex : q.index = i := by simpa using hparams i q hi
  obtain ⟨hlt, hget⟩ := List.getElem?_eq_some_iff.mp (hvar hi)
  refine List.find?_eq_some_iff_getElem.mpr
    ⟨by simp [parameterVariable], i, hlt, hget, fun j hj => ?_⟩
  -- no variable before it carries that position
  obtain ⟨p, hp⟩ : ∃ p, f.params[j]? = some p :=
    ⟨_, List.getElem?_eq_getElem (hj.trans (List.getElem?_eq_some_iff.mp hi).1)⟩
  rw [(List.getElem?_eq_some_iff.mp (hvar hp)).2]
  have hp : p.index = j := by simpa using hparams j p hp
  have hne : ¬ j = i := hj.ne
  simp [parameterVariable, hp, hindex, hne]

theorem indexed_of_build (h : l.build = .ok p) (hf : f ∈ p.functions) : f.Indexed := by
  obtain ⟨r, -, σ, hσ, hr⟩ := function_of_build h hf
  exact positioned_localVariables (positioned_parameters (numbered_signature hσ)) hr.vars

theorem ranges_of_build (h : l.build = .ok p) (hf : f ∈ p.functions) :
    f.ranges = f.vars.map f.rangeOf := by
  obtain ⟨r, -, σ, hσ, hr⟩ := function_of_build h hf
  rw [hr.analyzed]
  rfl

/-- What a function mentions is declared, in the function or globally. -/
theorem declared_of_build (h : l.build = .ok p) (hf : f ∈ p.functions) {i : Inst} (hi : i ∈ f.code)
    {v : Variable} (hv : i.Mentions v) : v ∈ f.vars ∨ v ∈ p.globals := by
  obtain ⟨r, -, σ, -, hr⟩ := function_of_build h hf
  obtain ⟨e, -, hei⟩ := exists_of_forall₂_right hr.code hi
  obtain ⟨o, ho, hv⟩ := hv
  obtain ⟨text, -, hreads⟩ := hei.reads ho
  exact hreads.declares hv

theorem isStatic_of_globalVariables {ds : List Declaration} {n : Nat} {vs : List Variable}
    (h : globalVariables n ds = .ok vs) : ∀ v ∈ vs, v.isStatic = true := by
  induction ds generalizing n vs with
  | nil =>
    cases h
    simp
  | cons d ds ih =>
    obtain ⟨t, ws, hws, rfl⟩ := globalVariables_cons h
    exact List.forall_mem_cons.mpr ⟨rfl, ih hws⟩

theorem isStatic_of_build (h : l.build = .ok p) {v : Variable} (hv : v ∈ p.globals) :
    v.isStatic = true := by
  obtain ⟨callees, hglobals, -⟩ := build_cases h
  exact isStatic_of_globalVariables hglobals v hv

theorem jumpsPlaced_of_build (h : l.build = .ok p) (hf : f ∈ p.functions) : f.JumpsPlaced := by
  obtain ⟨r, -, σ, -, hr⟩ := function_of_build h hf
  intro i hi a ha
  obtain ⟨l, hl, hne, rfl⟩ := Scope.goes_of_forall₂ hr.code hi ha
  obtain ⟨e, he, rfl⟩ := hr.placed l hl
  exact Scope.places_of_forall₂ hr.code he hne

/-- The anchors of a function are named after it. -/
theorem anchor_of_build (h : l.build = .ok p) (hf : f ∈ p.functions) {i : Inst} (hi : i ∈ f.code)
    {a : Anchor} (ha : i.anchor? = some a) : ∃ label, a.name = f.name ++ "_" ++ label := by
  obtain ⟨r, -, σ, -, hr⟩ := function_of_build h hf
  have hname : f.name = r.name := by rw [hr.analyzed]; rfl
  obtain ⟨e, -, hei⟩ := exists_of_forall₂_right hr.code hi
  rcases hei.anchor with htarget | ⟨-, hlabel⟩
  · obtain ⟨label, -, -, rfl⟩ := Scope.goes_of_forall₂ hr.code hi (htarget ▸ ha)
    exact ⟨label, by rw [hname]; rfl⟩
  · obtain rfl := Option.some.inj (hlabel.symm.trans ha)
    exact ⟨e.label, by rw [hname]; rfl⟩

/-- The labels of a function are placed once each. -/
theorem labels_nodup_of_build (h : l.build = .ok p) (hf : f ∈ p.functions) :
    (f.code.filterMap Inst.placed?).Nodup := by
  obtain ⟨r, -, σ, -, hr⟩ := function_of_build h hf
  exact hr.once

theorem names_of_build (h : l.build = .ok p) :
    p.functions.map (·.name) = l.functions.map (·.name) := by
  symm
  rw [← List.forall₂_eq_eq_eq, List.forall₂_map_left_iff, List.forall₂_map_right_iff]
  refine (bodies_of_build h).1.imp fun r f hr => ?_
  obtain ⟨σ, -, hr⟩ := hr
  rw [hr.analyzed]
  rfl

/-- **The functions of a program have names of their own.** -/
theorem nodup_of_build (h : l.build = .ok p) : (p.functions.map (·.name)).Nodup := by
  rw [names_of_build h]
  obtain ⟨callees, -, hcallees, -⟩ := build_cases h
  exact (nodup_of_signatures hcallees).1

end Functions

end Listing

end Octet
