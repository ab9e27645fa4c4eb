import Octet.Proofs.Listing

/-!
# Symbols of variables and labels

The variables and the labels of all functions, and the global variables, have their symbols in one
space of names. A symbol of a function joins the name of the function and the name in it by an
underscore. Names may have underscores of their own, so a symbol can be cut at more than one place,
and two names can be joined into the same symbol even if all names are distinct where they are
declared.

Two pairs of names are joined into the same symbol if they are equal, or if one function is named
like the other with something after it, which the name in the other function begins with. So what
has to be excluded are global variables named like a joined symbol, labels named like a variable of
the same function, and such pairs in two functions. A variable that shares its symbol with another
shares its memory too.

## Main definitions

* `Listing.joined` — the symbol of a name in a function
* `Listing.Routine.variables`, `Listing.Routine.labels` — the names in a function
* `Program.variables`, `Program.anchors` — what symbols a program has
* `Listing.Separable` — names that are not joined into the same symbol

## Main results

* `Listing.joined_eq_joined_iff` — which names are joined into the same symbol
* `Listing.symbols_distinct_iff_separable` — the symbols of a program are distinct exactly if its
  names are separable
* `Symbols.shared_symbol` — a program in which two variables share their memory
-/

namespace Octet

/-- The variables of a program. -/
def Program.variables (p : Program) : List Variable := p.globals ++ p.functions.flatMap (·.vars)

/-- The anchors that a program places or goes to. -/
def Program.anchors (p : Program) : List Anchor :=
  p.functions.flatMap fun f => f.code.filterMap Inst.anchor?

namespace Listing

/-- The symbol of a name in a function. -/
def joined (function name : String) : String := function ++ "_" ++ name

/-- The names of the variables of a routine. -/
def Routine.variables (r : Routine) : List String := (r.params ++ r.vars).map (·.name)

/-- The names of the labels of a routine. -/
def Routine.labels (r : Routine) : List String := (r.code.map (·.label)).filter (!·.isEmpty)

/-! ### Joined names -/

section Joined

variable {f g x y : String}

theorem toList_joined : (joined f x).toList = f.toList ++ '_' :: x.toList := by
  simp [joined, String.toList_append]

theorem joined_assoc {rest : String} : joined (joined f rest) x = joined f (joined rest x) := by
  simp [joined, String.append_assoc]

theorem joined_right_injective (f : String) : (joined f).Injective := by
  intro x y h
  rw [← String.toList_inj, toList_joined, toList_joined] at h
  exact String.toList_inj.mp (by simpa using h)

theorem joined_ne_left {rest : String} : joined f rest ≠ f := by
  intro h
  have hlength := congrArg (·.toList.length) h
  simp [toList_joined] at hlength

theorem joined_of_append {between : List Char} (hg : g.toList = f.toList ++ between)
    (hx : '_' :: x.toList = between ++ '_' :: y.toList) :
    (f = g ∧ x = y) ∨ ∃ rest, g = joined f rest ∧ x = joined rest y := by
  cases between with
  | nil =>
    rw [List.append_nil] at hg
    exact .inl ⟨(String.toList_inj.mp hg).symm, String.toList_inj.mp (by simpa using hx)⟩
  | cons c rest =>
    obtain ⟨rfl, hx⟩ := List.cons.inj hx
    refine .inr ⟨String.ofList rest, String.toList_inj.mp ?_, String.toList_inj.mp ?_⟩
    · simpa [toList_joined] using hg
    · simpa [toList_joined] using hx

/-- **Names that are joined into the same symbol**: the same names, or a function that is named like
the other with something after it. -/
theorem joined_eq_joined_iff :
    joined f x = joined g y ↔ (f = g ∧ x = y) ∨ (∃ rest, g = joined f rest ∧ x = joined rest y) ∨
      ∃ rest, f = joined g rest ∧ y = joined rest x := by
  constructor
  · intro h
    rw [← String.toList_inj, toList_joined, toList_joined] at h
    rcases List.append_eq_append_iff.mp h with ⟨between, hg, hx⟩ | ⟨between, hf, hy⟩
    · rcases joined_of_append hg hx with heq | hrest
      · exact .inl heq
      · exact .inr (.inl hrest)
    · rcases joined_of_append hf hy with ⟨rfl, rfl⟩ | hrest
      · exact .inl ⟨rfl, rfl⟩
      · exact .inr (.inr hrest)
  · rintro (⟨rfl, rfl⟩ | ⟨rest, rfl, rfl⟩ | ⟨rest, rfl, rfl⟩)
    · rfl
    · exact joined_assoc.symm
    · exact joined_assoc

end Joined

/-! ### Symbols of a program -/

section Symbols

variable {l : Listing} {p : Program} {r : Routine} {f : Function} {globals : List Variable}
  {callees : List Signature} {σ : Signature}

theorem slots_of_parameters {function : String} {ds : List Declaration} {n : Nat}
    {ps : List Parameter}
    (h : parameters function n ds = .ok ps) : ps.map (·.slot) = ds.map fun d =>
      joined function d.name := by
  induction ds generalizing n ps with
  | nil =>
    cases h
    rfl
  | cons d ds ih =>
    obtain ⟨t, qs, -, hqs, rfl⟩ := parameters_cons h
    rw [List.map_cons, List.map_cons, ih hqs]
    rfl

theorem labels_of_localVariables {function : String} {ds : List Declaration}
    {vs all : List Variable} (h : localVariables function vs ds = .ok all) :
    all.map (·.label) = vs.map (·.label) ++ ds.map fun d => joined function d.name := by
  induction ds generalizing vs with
  | nil =>
    cases h
    simp
  | cons d ds ih =>
    obtain ⟨t, h⟩ := localVariables_cons h
    rw [ih h]
    simp [joined]

theorem labels_of_globalVariables {ds : List Declaration} {n : Nat} {vs : List Variable}
    (h : globalVariables n ds = .ok vs) : vs.map (·.label) = ds.map (·.name) := by
  induction ds generalizing n vs with
  | nil =>
    cases h
    rfl
  | cons d ds ih =>
    obtain ⟨t, ws, hws, rfl⟩ := globalVariables_cons h
    rw [List.map_cons, List.map_cons, ih hws]

/-- The variables of a function have the joined symbols of their names. -/
theorem Routine.Reads.labels_vars (h : r.Reads globals callees σ f) (hσ : r.signature = .ok σ) :
    f.vars.map (·.label) = r.variables.map (joined r.name) := by
  have hparams : (σ.params.map parameterVariable).map (·.label) = σ.params.map (·.slot) := by
    rw [List.map_map]
    rfl
  rw [labels_of_localVariables h.vars, hparams, slots_of_parameters (parameters_of_signature hσ).2,
    Routine.variables, List.map_map, List.map_append]
  rfl

/-- The anchors of a function have the joined symbols of its labels. -/
theorem Routine.Reads.mem_anchors_iff (h : r.Reads globals callees σ f) {a : Anchor} :
    a ∈ f.code.filterMap Inst.anchor? ↔ ∃ x ∈ r.labels, a.name = joined r.name x := by
  have hmem : ∀ {e : Entry}, e ∈ r.code → e.label.isEmpty = false → e.label ∈ r.labels := by
    intro e he hlabel
    exact List.mem_filter.mpr ⟨List.mem_map_of_mem he, by simp [hlabel]⟩
  constructor
  · intro ha
    obtain ⟨i, hi, ha⟩ := List.mem_filterMap.mp ha
    obtain ⟨e, he, hei⟩ := exists_of_forall₂_right h.code hi
    rcases hei.anchor with htarget | ⟨hlabel, hplaced⟩
    · obtain ⟨x, hx, hne, rfl⟩ := Scope.goes_of_forall₂ h.code hi (htarget ▸ ha)
      obtain ⟨e, he, rfl⟩ := h.placed x hx
      exact ⟨e.label, hmem he hne, rfl⟩
    · obtain rfl := Option.some.inj (hplaced.symm.trans ha)
      exact ⟨e.label, hmem he hlabel, rfl⟩
  · rintro ⟨x, hx, ha⟩
    obtain ⟨hx, hne⟩ := List.mem_filter.mp hx
    obtain ⟨e, he, rfl⟩ := List.mem_map.mp hx
    have hplaced := Scope.places_of_forall₂ h.code he (by simpa using hne)
    exact List.mem_filterMap.mpr ⟨_, hplaced, congrArg some (Anchor.mk.injEq .. ▸ ha.symm)⟩

theorem labels_globals_of_build (h : l.build = .ok p) :
    p.globals.map (·.label) = l.globals.map (·.name) := by
  obtain ⟨callees, hglobals, -⟩ := build_cases h
  exact labels_of_globalVariables hglobals

/-- **The symbols of variables.** -/
theorem labels_variables_of_build (h : l.build = .ok p) :
    p.variables.map (·.label) =
      l.globals.map (·.name) ++ l.functions.flatMap fun r => r.variables.map (joined r.name) := by
  have hfunctions : ∀ {rs : List Routine} {fs : List Function} {callees : List Signature},
      List.Forall₂ (fun r f => ∃ σ, r.signature = .ok σ ∧ r.Reads p.globals callees σ f) rs fs →
      (fs.flatMap (·.vars)).map (·.label) = rs.flatMap fun r =>
        r.variables.map (joined r.name) := by
    intro rs fs callees hbodies
    induction hbodies with
    | nil => rfl
    | cons hr _ ih =>
      obtain ⟨σ, hσ, hr⟩ := hr
      rw [List.flatMap_cons, List.map_append, ih, hr.labels_vars hσ, List.flatMap_cons]
  rw [Program.variables, List.map_append, labels_globals_of_build h,
    hfunctions (bodies_of_build h).1]

/-- **The symbols of anchors.** -/
theorem mem_anchors_of_build (h : l.build = .ok p) {a : Anchor} :
    a ∈ p.anchors ↔ ∃ r ∈ l.functions, ∃ x ∈ r.labels, a.name = joined r.name x := by
  constructor
  · intro ha
    obtain ⟨f, hf, ha⟩ := List.mem_flatMap.mp ha
    obtain ⟨r, hr, σ, -, hreads⟩ := function_of_build h hf
    exact ⟨r, hr, hreads.mem_anchors_iff.mp ha⟩
  · rintro ⟨r, hr, hx⟩
    obtain ⟨f, hf, σ, -, hreads⟩ := exists_of_forall₂_left (bodies_of_build h).1 hr
    exact List.mem_flatMap.mpr ⟨f, hf, hreads.mem_anchors_iff.mpr hx⟩

end Symbols

/-! ### Names that can be told apart -/

/-- **Names that are not joined into the same symbol**, unless both are labels. -/
structure Separable (l : Listing) : Prop where
  /-- No global variable is named like a symbol of a function. -/
  globals : ∀ r ∈ l.functions, ∀ x ∈ r.variables ++ r.labels,
    joined r.name x ∉ l.globals.map (·.name)
  /-- No label is named like a variable of the function. -/
  labels : ∀ r ∈ l.functions, ∀ x ∈ r.labels, x ∉ r.variables
  /-- If a function is named like another with something after it, the names in the other one do not
  begin with that. -/
  functions : ∀ q ∈ l.functions, ∀ r ∈ l.functions, ∀ rest, q.name = joined r.name rest →
    (∀ y ∈ q.variables ++ q.labels, joined rest y ∉ r.variables) ∧ ∀ y ∈ q.variables,
      joined rest y ∉ r.labels

section Separable

variable {l : Listing} {p : Program} {q r : Routine} {x y : String}

theorem Separable.eq_of_joined_eq (h : l.Separable) (hnames : (l.functions.map (·.name)).Nodup)
    (hq : q ∈ l.functions)
    (hr : r ∈ l.functions) (hx : x ∈ q.variables) (hy : y ∈ r.variables ++ r.labels)
    (heq : joined q.name x = joined r.name y) : q = r ∧ x = y := by
  rcases joined_eq_joined_iff.mp heq with ⟨hname, rfl⟩ | ⟨rest, hname, rfl⟩ | ⟨rest, hname, rfl⟩
  · exact ⟨List.inj_on_of_nodup_map hnames hq hr hname, rfl⟩
  · exact absurd hx ((h.functions r hr q hq rest hname).1 y hy)
  · rcases List.mem_append.mp hy with hy | hy
    · exact absurd hy ((h.functions q hq r hr rest hname).1 x (List.mem_append_left _ hx))
    · exact absurd hy ((h.functions q hq r hr rest hname).2 x hx)

theorem mem_symbols_iff {symbol : String} :
    symbol ∈ l.functions.flatMap (fun r => r.variables.map (joined r.name)) ↔
      ∃ r ∈ l.functions, ∃ x ∈ r.variables, joined r.name x = symbol := by
  simp [List.mem_flatMap]

theorem Separable.nodup (h : l.Separable) (hnames : (l.functions.map (·.name)).Nodup)
    (hglobals : (l.globals.map (·.name)).Nodup) (hvariables : ∀ r ∈ l.functions,
      r.variables.Nodup) :
    (l.globals.map (·.name) ++ l.functions.flatMap fun r =>
      r.variables.map (joined r.name)).Nodup := by
  refine List.nodup_append.mpr ⟨hglobals, List.nodup_flatMap.mpr ⟨?_, ?_⟩, ?_⟩
  · exact fun r hr => (hvariables r hr).map (joined_right_injective _)
  · refine hnames.of_map.pairwise_of_forall_ne fun q hq r hr hne symbol hsymbol hsymbol' => hne ?_
    obtain ⟨x, hx, rfl⟩ := List.mem_map.mp hsymbol
    obtain ⟨y, hy, heq⟩ := List.mem_map.mp hsymbol'
    exact (h.eq_of_joined_eq hnames hq hr hx (List.mem_append_left _ hy) heq.symm).1
  · rintro symbol hglobal _ hsymbol rfl
    obtain ⟨r, hr, x, hx, rfl⟩ := mem_symbols_iff.mp hsymbol
    exact h.globals r hr x (List.mem_append_left _ hx) hglobal

theorem Separable.label_notMem (h : l.Separable) (hnames : (l.functions.map (·.name)).Nodup)
    (hr : r ∈ l.functions) (hy : y ∈ r.labels) :
    joined r.name y ∉ l.globals.map (·.name) ++ l.functions.flatMap fun r =>
      r.variables.map (joined r.name) := by
  have hy' : y ∈ r.variables ++ r.labels := List.mem_append_right _ hy
  intro hmem
  rcases List.mem_append.mp hmem with hglobal | hsymbol
  · exact h.globals r hr y hy' hglobal
  · obtain ⟨q, hq, x, hx, heq⟩ := mem_symbols_iff.mp hsymbol
    obtain ⟨rfl, rfl⟩ := h.eq_of_joined_eq hnames hq hr hx hy' heq
    exact h.labels q hq x hy hx

theorem separable_of_nodup
    (hnodup : (l.globals.map (·.name) ++ l.functions.flatMap fun r =>
      r.variables.map (joined r.name)).Nodup)
    (hapart : ∀ r ∈ l.functions, ∀ y ∈ r.labels,
      joined r.name y ∉ l.globals.map (·.name) ++ l.functions.flatMap fun r =>
        r.variables.map (joined r.name)) :
    l.Separable := by
  obtain ⟨-, hsymbols, hglobals⟩ := List.nodup_append.mp hnodup
  obtain ⟨-, hpairs⟩ := List.nodup_flatMap.mp hsymbols
  have hlabel : ∀ r ∈ l.functions, ∀ y ∈ r.labels, ∀ q ∈ l.functions, ∀ x ∈ q.variables,
      joined q.name x ≠ joined r.name y := by
    intro r hr y hy q hq x hx heq
    exact hapart r hr y hy (List.mem_append_right _ (mem_symbols_iff.mpr ⟨q, hq, x, hx, heq⟩))
  refine ⟨?_, ?_, ?_⟩
  · intro r hr x hx hglobal
    rcases List.mem_append.mp hx with hx | hx
    · exact hglobals _ hglobal _ (mem_symbols_iff.mpr ⟨r, hr, x, hx, rfl⟩) rfl
    · exact hapart r hr x hx (List.mem_append_left _ hglobal)
  · exact fun r hr x hx hvariable => hlabel r hr x hx r hr x hvariable rfl
  · intro q hq r hr rest hname
    -- the symbol of a name in `q` is that of what it continues in `r`
    have heq : ∀ y, joined r.name (joined rest y) = joined q.name y :=
      fun y => by rw [hname, joined_assoc]
    have hne : q ≠ r := fun h => joined_ne_left (h ▸ hname).symm
    refine ⟨fun y hy hvariable => ?_, fun y hy hrest => hlabel r hr _ hrest q hq y hy (heq y).symm⟩
    rcases List.mem_append.mp hy with hy | hy
    · have : Std.Symm (Function.onFun List.Disjoint fun r : Routine =>
        r.variables.map (joined r.name)) :=
        ⟨fun _ _ h => h.symm⟩
      have hdisjoint := hpairs.forall hq hr hne
      exact hdisjoint (List.mem_map.mpr ⟨y, hy, (heq y).symm⟩)
        (List.mem_map.mpr ⟨_, hvariable, rfl⟩)
    · exact hlabel q hq y hy r hr _ hvariable (heq y)

/-- **The symbols of a program are distinct exactly if its names are separable.** The names of
global variables are distinct, and so are those of the variables of each function. -/
theorem symbols_distinct_iff_separable (h : l.build = .ok p)
    (hglobals : (l.globals.map (·.name)).Nodup)
    (hvariables : ∀ r ∈ l.functions, r.variables.Nodup) :
    ((p.variables.map (·.label)).Nodup ∧ ∀ a ∈ p.anchors, ∀ v ∈ p.variables, a.name ≠ v.label) ↔
      l.Separable := by
  have hnames : (l.functions.map (·.name)).Nodup := names_of_build h ▸ nodup_of_build h
  have hanchors : (∀ a ∈ p.anchors, ∀ v ∈ p.variables, a.name ≠ v.label) ↔
      ∀ r ∈ l.functions, ∀ y ∈ r.labels, joined r.name y ∉ p.variables.map (·.label) := by
    constructor
    · intro hapart r hr y hy hmem
      obtain ⟨v, hv, heq⟩ := List.mem_map.mp hmem
      exact hapart ⟨joined r.name y⟩ ((mem_anchors_of_build h).mpr ⟨r, hr, y, hy, rfl⟩) v
        hv heq.symm
    · intro hapart a ha v hv heq
      obtain ⟨r, hr, y, hy, hname⟩ := (mem_anchors_of_build h).mp ha
      exact hapart r hr y hy (List.mem_map.mpr ⟨v, hv, heq.symm.trans hname⟩)
  rw [hanchors, labels_variables_of_build h]
  exact ⟨fun hapart => separable_of_nodup hapart.1 hapart.2,
    fun hl => ⟨hl.nodup hnames hglobals hvariables, fun r hr y hy => hl.label_notMem hnames hr hy⟩⟩

end Separable

end Listing

namespace Symbols

/-- A function that keeps a value across a call, and a global variable that it sets meanwhile. -/
def sharedListing : Listing where
  globals := [⟨"f_x", "byte"⟩]
  externs := [{ name := "h" }]
  functions :=
    [{  name := "f"
        result := "byte"
        vars := [⟨"x", "byte"⟩]
        code :=
          [ { op := "load", dest := "x", left := "5" },
            { op := "load", dest := "f_x", left := "7" },
            { op := "call", callee := "h" },
            { op := "return", left := "x" } ] }]

/-- The global variable. -/
def global : Variable := ⟨0, true, "f_x", "f_x", .byte false, none⟩

/-- The variable of the function. -/
def kept : Variable := ⟨0, false, "x", "f_x", .byte false, none⟩

/-- The program of `sharedListing`. -/
def shared : Program where
  globals := [global]
  strings := []
  externs := [⟨"h", [], .void⟩]
  functions :=
    [{  name := "f"
        params := []
        result := .byte false
        vars := [kept]
        code :=
          [ .load (.whole kept) (.int (.byte false) 5),
            .load (.whole global) (.int (.byte false) 7),
            .call ⟨"h", [], .void⟩ [] none,
            .ret (some (.whole kept)) ]
        ranges := [⟨[1, 4], none⟩] }]

/-- All names are distinct where they are declared, and yet both variables have the symbol `f_x`:
the name of the global variable is the symbol of the other. -/
theorem shared_symbol :
    sharedListing.build = .ok shared ∧ ¬ sharedListing.Separable ∧
      ¬ ((shared.variables.map (·.label)).Nodup ∧ ∀ a ∈ shared.anchors, ∀ v ∈ shared.variables,
        a.name ≠ v.label) := by
  have h : sharedListing.build = .ok shared := by cbv
  have hsame : ¬ (shared.variables.map (·.label)).Nodup := by decide
  have hiff := Listing.symbols_distinct_iff_separable h (by decide) (by decide)
  exact ⟨h, fun hl => hsame (hiff.mpr hl).1, fun hapart => hsame hapart.1⟩

end Symbols

end Octet
