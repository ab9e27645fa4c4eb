import Octet.Proofs.Balance.Running
import Octet.Proofs.Executable.Runs

/-!
# Labels of compiled code

A block of code places the anchor of its instruction, if that is a label, and every label that was
generated for it. It sends control to the anchor of its instruction and to the labels that it placed
itself. As a function places every anchor that its instructions may go to, and each of them once,
its code is *closed*: no label is missing and none is there twice. Generated labels are numbered
through, so that no two functions share one.

Anchors are named after their function, and a function with a name keeps them apart from generated
labels.

## Main definitions

* `Labelled` — blocks whose labels are anchors and those generated along the way
* `Assembly.Routine.Closed` — code in which control goes to labels that are placed once

## Main results

* `Program.closed_of_compile` — the code of every function is closed
* `Program.labels_closed` — and no jump of a run goes astray
-/

namespace Octet

open Assembly

/-! ### Closed code -/

/-- The labels that the code of a function places. -/
def Assembly.Routine.labels (f : Routine) : List String := f.code.filterMap Line.label?

/-- **Closed code.** Every label is placed once, and control is sent to no other one. -/
structure Assembly.Routine.Closed (f : Routine) : Prop where
  nodup : f.labels.Nodup
  goals : ∀ i, Line.instr i ∈ f.code → i.GoesTo (· ∈ f.labels)

/-! ### Blocks -/

/-- The name of the anchor that the block of an instruction places. -/
def Built.anchors (b : Built) : List String := (b.inst.bind Inst.placed?).toList.map (·.name)

theorem anchors_eq (bs : List Built) :
    bs.flatMap Built.anchors = ((bs.filterMap (·.inst)).filterMap Inst.placed?).map (·.name) := by
  induction bs with
  | nil => rfl
  | cons b bs ih =>
    rw [List.flatMap_cons, ih]
    cases hi : b.inst with
    | none => simp [Built.anchors, hi]
    | some i => cases hp : i.placed? <;> simp [Built.anchors, hi, hp]

/-- **Blocks whose labels are accounted for**: each is an anchor or was generated between two
numbers, and control is sent to labels of the same block and to the anchor of its instruction. -/
structure Labelled (bs : List Built) (n n' : Nat) : Prop where
  le : n ≤ n'
  placed : (bs.flatMap fun b => b.lines.filterMap Line.label?).Perm
    (bs.flatMap Built.anchors ++ generatedLabels n n')
  goals : ∀ b ∈ bs, ∀ i, Line.instr i ∈ b.lines →
    i.GoesTo fun name => (∃ a, b.inst.bind (·.anchor?) = some a ∧ a.name = name) ∨
      name ∈ b.lines.filterMap Line.label?

namespace Labelled

variable {bs cs : List Built} {n n' n'' : Nat}

theorem nil (n : Nat) : Labelled [] n n := ⟨Nat.le_refl n, by simp [generatedLabels_self], by simp⟩

theorem append (h : Labelled bs n n') (h' : Labelled cs n' n'') : Labelled (bs ++ cs) n n'' where
  le := h.le.trans h'.le
  placed := by
    refine List.perm_iff_count.mpr fun name => ?_
    have hcount := List.perm_iff_count.mp h.placed name
    have hcount' := List.perm_iff_count.mp h'.placed name
    rw [← generatedLabels_append h.le h'.le]
    simp only [List.flatMap_append, List.count_append] at hcount hcount' ⊢
    omega
  goals b hb := by
    rcases List.mem_append.mp hb with hb | hb
    · exact h.goals b hb
    · exact h'.goals b hb

end Labelled

theorem Site.names_placing (s : Site) :
    s.placing.map (·.1) = ((s.inst.bind Inst.placed?).toList.map (·.name)) := by
  cases hi : s.inst with
  | none => simp [placing, hi]
  | some i => cases i <;> simp [placing, hi, Build.placing, Inst.placed?]

namespace Function

variable {ledger ledger' : Ledger}

theorem buildAt_labelled {site : Site} {known : Constants} {flags : FlagState} {o : Outcome}
    (h : buildAt site known flags none site.act ledger = (o, ledger')) (hok : o.fault = none) :
    Labelled [o.block] ledger.labels ledger'.labels := by
  obtain ⟨e, he, -⟩ | ⟨-, w, hlines, rfl, hinst, hadv⟩ := buildAt_cases h
  · cases he.symm.trans hok
  · obtain ⟨ls, hls, hplaces, -⟩ := hadv.lines
    have hlines : o.block.lines = ls := hlines.trans hls
    have hplaced : (o.block.anchors ++ generatedLabels ledger.labels w.ledger.labels).Perm
        (ls.filterMap Line.label?) := by
      have hnames : Stage.names (.of [] site.placing) = o.block.anchors := by
        rw [Built.anchors, hinst]
        exact site.names_placing
      rw [← hnames]
      simpa [Stage.names, Stage.of] using hplaces.placed
    refine ⟨hadv.labels, by simpa [hlines] using hplaced.symm, ?_⟩
    rintro b hb i hi
    obtain rfl := List.mem_singleton.mp hb
    rw [hlines] at hi ⊢
    refine (hplaces.goals i hi).mono fun name hname =>
      hname.imp (fun hname => hinst ▸ hname) fun hname => ?_
    have hsite := hplaces.placed.mem_iff.mp hname
    simpa [Stage.names, Stage.of] using hsite

end Function

theorem Builds.labelled {sites : List Site} {ledger ledger' : Ledger} {bs : List Built}
    {stop : Option (Site × Fault)}
    (h : Builds sites ledger bs stop ledger') (hok : stop = none) :
    Labelled bs ledger.labels ledger'.labels := by
  induction h with
  | done => exact .nil _
  | fault => cases hok
  | step hat ho _ ih => exact (Function.buildAt_labelled hat ho).append (ih hok)

/-! ### Functions and programs -/

theorem nodup_generatedLabels (n n' : Nat) : (generatedLabels n n').Nodup :=
  (List.nodup_range' 1).map generatedLabel_injective

/-- No anchor of the function is named as a generated label. -/
def Function.AnchorsApart (f : Function) : Prop :=
  ∀ i ∈ f.code, ∀ a, i.anchor? = some a → ∀ n, a.name ≠ generatedLabel n

theorem Inst.anchor?_of_placed? {i : Inst} {a : Anchor} (h : i.placed? = some a) :
    i.anchor? = some a ∧ i = .label a := by
  cases i with
  | label b =>
    cases h
    exact ⟨rfl, rfl⟩
  | _ => cases h

theorem Inst.target?_of_anchor? {i : Inst} {a : Anchor} (h : i.anchor? = some a) :
    i = .label a ∨ i.target? = some a := by
  cases i with
  | label b =>
    cases h
    exact .inl rfl
  | jump _ | compare _ _ _ _ | decJump _ _ => exact .inr h
  | _ => cases h

namespace CompiledFunction

variable {c : CompiledFunction} {n n' : Nat}

/-- The labels of compiled code are the anchors of the function and labels that were generated. -/
theorem labels_routine (hblocks : Labelled c.attempt.blocks n n')
    (hinsts : c.attempt.blocks.filterMap (·.inst) = c.function.code) :
    c.routine.labels.Perm ((c.function.code.filterMap Inst.placed?).map (·.name) ++
      generatedLabels n n') := by
  have hplaced := hblocks.placed
  rw [anchors_eq, hinsts] at hplaced
  unfold Routine.labels CompiledFunction.routine
  rwa [List.filterMap_flatMap]

/-- An anchor is no generated label. -/
theorem name_ne_generatedLabel (hapart : c.function.AnchorsApart) {name : String}
    (h : name ∈ (c.function.code.filterMap Inst.placed?).map (·.name)) (k : Nat) :
    name ≠ generatedLabel k := by
  obtain ⟨a, ha, rfl⟩ := List.mem_map.mp h
  obtain ⟨i, hi, hplaced⟩ := List.mem_filterMap.mp ha
  exact hapart i hi a (Inst.anchor?_of_placed? hplaced).1 k

/-- **The code of a function is closed** if the function places its anchors, each once and apart
from generated labels. -/
theorem closed_routine (hblocks : Labelled c.attempt.blocks n n')
    (hinsts : c.attempt.blocks.filterMap (·.inst) = c.function.code)
    (hapart : c.function.AnchorsApart)
    (hjumps : c.function.JumpsPlaced) (hnodup : (c.function.code.filterMap Inst.placed?).Nodup) :
    c.routine.Closed := by
  have hlabels := labels_routine hblocks hinsts
  constructor
  · refine hlabels.nodup_iff.mpr (List.nodup_append.mpr ⟨?_, nodup_generatedLabels n n', ?_⟩)
    · refine hnodup.map ?_
      rintro ⟨name⟩ ⟨_⟩ rfl
      rfl
    · rintro name hname _ hgenerated rfl
      obtain ⟨k, -, hk⟩ := List.mem_map.mp hgenerated
      exact name_ne_generatedLabel hapart hname k hk.symm
  · intro i hi
    obtain ⟨b, hb, hib⟩ := List.mem_flatMap.mp hi
    refine (hblocks.goals b hb i hib).mono ?_
    rintro name (⟨a, ha, rfl⟩ | hname)
    · obtain ⟨j, hj, ha⟩ := Option.bind_eq_some_iff.mp ha
      have hcode : j ∈ c.function.code := hinsts ▸ List.mem_filterMap.mpr ⟨b, hb, hj⟩
      have hplaced : Inst.label a ∈ c.function.code := by
        obtain rfl | htarget := Inst.target?_of_anchor? ha
        · exact hcode
        · exact hjumps j hcode a htarget
      refine hlabels.mem_iff.mpr (List.mem_append_left _ (List.mem_map.mpr ⟨a, ?_, rfl⟩))
      exact List.mem_filterMap.mpr ⟨_, hplaced, rfl⟩
    · obtain ⟨line, hline, hlabel⟩ := List.mem_filterMap.mp hname
      exact List.mem_filterMap.mpr ⟨line, List.mem_flatMap.mpr ⟨b, hb, hline⟩, hlabel⟩

end CompiledFunction

namespace Program

variable {target : Target} {ledger ledger' : Ledger}

variable {l : Listing} {p : Program} {c : Compilation} {asm : Assembly}

/-- **The code of every function is closed**, and a generated label is placed in one function at
most. -/
theorem closed_of_compile (hbuild : l.build = .ok p) (hapart : p.AnchorsApart)
    (hcompile : p.compile target ledger = (c, ledger')) (hok : c.outcome = .ok asm) :
    (∀ f ∈ asm.functions, f.Closed) ∧ ∀ n, (asm.functions.flatMap (·.labels)).count
      (generatedLabel n) ≤ 1 := by
  obtain ⟨hfunctions, hinsts⟩ := functions_of_compile hcompile hok
  obtain ⟨ledger₁, hfs, rfl, -⟩ := compile_of_ok hcompile hok
  obtain ⟨⟨stop, hbs, hstop⟩, heach⟩ := builds_compileFunctions hfs
  have hall := hbs.labelled (Option.map_eq_none_iff.mp hstop.symm)
  have hmem : ∀ d ∈ c.functions, d.function ∈ p.functions :=
    fun d hd => hfunctions ▸ List.mem_map_of_mem hd
  constructor
  · intro f hf
    obtain ⟨d, hd, rfl⟩ := List.mem_map.mp hf
    obtain ⟨-, l, l', hblocks⟩ := (heach rfl).2 d hd
    exact CompiledFunction.closed_routine (hblocks.labelled rfl) (hinsts d hd)
      (hapart _ (hmem d hd))
      (Listing.jumpsPlaced_of_build hbuild (hmem d hd))
        (Listing.labels_nodup_of_build hbuild (hmem d hd))
  · intro n
    have hlabels : (c.functions.map (·.routine)).flatMap (·.labels) =
        (c.functions.flatMap (·.attempt.blocks)).flatMap fun b =>
          b.lines.filterMap Line.label? := by
      rw [List.flatMap_map, List.flatMap_assoc]
      refine List.flatMap_congr fun d _ => ?_
      unfold Routine.labels CompiledFunction.routine
      rw [List.filterMap_flatMap]
    rw [hlabels, hall.placed.count_eq, List.count_append]
    have hanchors : ((c.functions.flatMap (·.attempt.blocks)).flatMap Built.anchors).count
        (generatedLabel n) = 0 := by
      refine List.count_eq_zero.mpr fun hname => ?_
      obtain ⟨b, hb, hname⟩ := List.mem_flatMap.mp hname
      obtain ⟨d, hd, hb⟩ := List.mem_flatMap.mp hb
      have hname : generatedLabel n ∈ (d.function.code.filterMap Inst.placed?).map (·.name) := by
        rw [← hinsts d hd, ← anchors_eq]
        exact List.mem_flatMap.mpr ⟨b, hb, hname⟩
      exact CompiledFunction.name_ne_generatedLabel (hapart _ (hmem d hd)) hname n rfl
    rw [hanchors, Nat.zero_add]
    exact List.nodup_iff_count_le_one.mp (nodup_generatedLabels _ _) _

end Program

/-! ### Runs -/

namespace Simulator

theorem lookup_labels_of_mem {f : Routine} {name : String} (h : name ∈ f.labels) :
    (Code.load f f).labels.lookup name ≠ none := by
  obtain ⟨line, hline, hlabel⟩ := List.mem_filterMap.mp h
  obtain ⟨k, hk⟩ := List.mem_iff_getElem?.mp hline
  have hmem : (name, k) ∈ f.code.zipIdx.filterMap Code.label? := by
    refine List.mem_filterMap.mpr ⟨(line, k), List.mem_zipIdx_iff_getElem?.mpr hk, ?_⟩
    cases line with
    | label name' =>
      cases hlabel
      rfl
    | _ => cases hlabel
  intro hnone
  rw [List.lookup_eq_none_iff] at hnone
  have hfound := hnone _ (List.mem_map_of_mem (List.mem_reverse.mpr hmem))
  simp at hfound

/-- A jump goes to the label of a jump or a branch. -/
theorem kind_of_jump {i : Instr} {name : String} (h : .jump name ∈ i.transfers) :
    (i.kind = .branch ∨ i.kind = .jump) ∧ name = referred i := by
  unfold Instr.transfers at h
  split at h
  all_goals simp_all

/-- **Closed code finds its labels**: no run fails because a label is missing. -/
theorem ne_unknownLabel_of_failure {m : Arch} {s : Simulator m.Cpu} {fs : List Routine}
    (hs : s.processor = m.processor) (hcode : s.code = fs.map fun f => Code.load f f)
    (hclosed : ∀ f ∈ fs, f.Closed) {name : String} {M : Machine m.Cpu} {e : Failure}
    (he : (s.run name M).failure = some e) (label function : String) :
    e.trap? ≠ some (.unknownLabel label function) := by
  intro ht
  generalize hu : Trap.unknownLabel label function = u at ht
  cases raises_of_failure he ht with
  | step _ _ h =>
    rw [hs] at h
    subst hu
    cases (m.meets_step _ _).of_error h with
    | rejected _ hrejection => cases hrejection
  | label hmem hp h hname =>
    rw [hcode] at hmem
    obtain ⟨f, hf, rfl⟩ := List.mem_map.mp hmem
    rw [hs] at h
    obtain ⟨hkind, rfl⟩ := kind_of_jump ((m.meets_step _ _).of_ok h).1
    obtain ⟨goal, hargs, hgoal⟩ := (hclosed f hf).goals _ (Code.mem_code_of_load hp).1 hkind
    rw [referred, hargs] at hname
    exact lookup_labels_of_mem hgoal hname
  | callee => cases hu
  | unbalanced => cases hu

end Simulator

/-- **Labels are closed.** If all functions have names, then in the code of each function every
label is placed once and every branch and jump goes to one of these labels; a generated label is
placed once in the whole program; and no run of the program fails because a label is missing. -/
theorem Program.labels_closed {l : Listing} {p : Program} {target : Target}
    {ledger ledger' : Ledger}
    {c : Compilation} {asm : Assembly} (hbuild : l.build = .ok p)
    (hnames : ∀ f ∈ p.functions, f.name ≠ "")
    (hcompile : p.compile target ledger = (c, ledger')) (hok : c.outcome = .ok asm) :
    (∀ f ∈ asm.functions, f.labels.Nodup ∧
      ∀ i, Line.instr i ∈ f.code → i.kind = .branch ∨ i.kind = .jump →
        ∃ name, i.args = [.label name] ∧ name ∈ f.labels) ∧
      (∀ n, (asm.functions.flatMap (·.labels)).count (generatedLabel n) ≤ 1) ∧
      ∀ s : Simulator target.arch.Cpu, s.processor = target.arch.processor →
        s.code = Simulator.Code.ofAssembly asm →
        ∀ name M e, (s.run name M).failure = some e →
          ∀ label function, e.trap? ≠ some (.unknownLabel label function) := by
  obtain ⟨hclosed, honce⟩ :=
    closed_of_compile hbuild (Listing.anchorsApart_of_build hbuild hnames) hcompile hok
  refine ⟨fun f hf => ⟨(hclosed f hf).nodup, (hclosed f hf).goals⟩, honce, ?_⟩
  intro s hs hcode name M e he label function
  have hnodup : (asm.functions.map (·.name)).Nodup :=
    names_of_compile hcompile hok ▸ Listing.nodup_of_build hbuild
  rw [Simulator.Code.ofAssembly_of_nodup hnodup] at hcode
  exact Simulator.ne_unknownLabel_of_failure hs hcode hclosed he label function

/-- The comparison is compiled to jumps to a label of the function and to one that is generated for
it. -/
theorem Balance.labels_crossing :
    ((code "f").functions.map fun f => f.labels) = [["_L1", "f_L1", "f_yes"]] ∧
      (∀ f ∈ (code "f").functions, ∀ i, Line.instr i ∈ f.code → i.kind = .branch ∨ i.kind = .jump →
        ∃ name, i.args = [.label name] ∧ name ∈ f.labels) ∧
      ∀ e, ((host "f").run "f" machine).failure = some e →
        ∀ label function, e.trap? ≠ some (.unknownLabel label function) := by
  have hnames : ∀ name ∈ (crossed "f").functions.map (·.name), name ≠ "" := by decide +kernel
  have hcompile : (crossed "f").compile Arch.wdc65816.target .empty = (compiled "f", _) := rfl
  obtain ⟨hlabels, -, hruns⟩ := Program.labels_closed build_crossing
    (fun f hf => hnames f.name (List.mem_map_of_mem hf)) hcompile outcome_compiled
  exact ⟨by decide +kernel, fun f hf => (hlabels f hf).2, hruns (host "f") rfl rfl "f" machine⟩

end Octet
