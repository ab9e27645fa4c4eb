import Octet.Proofs.Balance.Instructions

/-!
# Compiled code is balanced

Whatever is compiled, no reservation is released out of order and none is left open at the end of an
instruction: each of the computations that build code is balanced from the stage at which nothing is
reserved. What the computation of an instruction appends leads from the level at which the function
was entered back to that level, for the levels that its own labels stand for. As labels are numbered
through, those levels can be chosen for a whole program at once.

## Main definitions

* `Levelled` — blocks of code whose levels fit, for some levels of the labels generated along the
  way
* `Builds` — building one site after another

## Main results

* `Builds.levelled` — blocks that were built fit
* `Program.builds_compileFunctions` — functions are compiled site after site
* `Program.reservations_balanced` — reservations are balanced
-/

namespace Octet

open Assembly

/-! ### Blocks -/

/-- **Blocks of code whose levels fit**: from the level at which functions are entered back to it,
for some levels of the labels generated between two numbers. -/
def Levelled (bs : List Built) (n n' : Nat) : Prop :=
  n ≤ n' ∧ ∃ γ : Nat → Level, ∀ Γ : Labelling,
    (∀ b ∈ bs, ∀ a, b.inst.bind (·.anchor?) = some a → Γ a.name = .base) →
    (∀ i, n < i → i ≤ n' → Γ (generatedLabel i) = γ i) → ∀ b ∈ bs, Leads Γ .base b.lines .base

namespace Levelled

variable {bs cs : List Built} {n n' n'' : Nat}

theorem nil (n : Nat) : Levelled [] n n := ⟨Nat.le_refl n, fun _ => .base, by simp⟩

/-- Blocks after others generate other labels. -/
theorem append (h : Levelled bs n n') (h' : Levelled cs n' n'') : Levelled (bs ++ cs) n n'' := by
  obtain ⟨hle, γ, hγ⟩ := h
  obtain ⟨hle', δ, hδ⟩ := h'
  refine ⟨hle.trans hle', fun i => if i ≤ n' then γ i else δ i,
    fun Γ hanchors hgenerated b hb => ?_⟩
  rcases List.mem_append.mp hb with hb | hb
  · refine hγ Γ (fun c hc => hanchors c (List.mem_append_left cs hc)) (fun i hi hi' => ?_) b hb
    exact (hgenerated i hi (hi'.trans hle')).trans (if_pos hi')
  · refine hδ Γ (fun c hc => hanchors c (List.mem_append_right bs hc)) (fun i hi hi' => ?_) b hb
    exact (hgenerated i (hle.trans_lt hi) hi').trans (if_neg (Nat.not_le_of_lt hi))

end Levelled

/-- The computation that builds an instruction, or the prologue. -/
def Site.act (s : Site) : Build Unit :=
  match s.inst with
  | some i => Build.instruction i
  | none => Build.prologue

/-- The anchor that is placed at the site. -/
def Site.placing (s : Site) : List (String × Level) := s.inst.elim [] Build.placing

theorem Site.names_of_placing {s : Site} {x : String × Level} (h : x ∈ s.placing) :
    s.Names x.1 ∧ x.2 = .base := by
  cases hi : s.inst with
  | none => simp [placing, hi] at h
  | some i =>
    cases i with
    | label a =>
      obtain rfl : x = (a.name, .base) := by simpa [placing, hi, Build.placing] using h
      exact ⟨⟨a, by rw [hi]; rfl, rfl⟩, rfl⟩
    | _ => simp [placing, hi, Build.placing] at h

theorem Site.balanced_act (s : Site) : Build.Balanced s (.of [] s.placing) s.act fun _ =>
    .of [] [] := by
  unfold Site.act Site.placing
  split
  · rename_i i hi
    have hact := Build.balanced_instruction (P := []) hi
    rw [List.append_nil] at hact
    rwa [hi]
  · rename_i hi
    rw [hi]
    exact Build.neutral_prologue _ _

/-! ### Functions -/

namespace Function

variable {site : Site} {known : Constants} {flags : FlagState} {ledger ledger' : Ledger}
  {o : Outcome}

/-- **Building one instruction** faults for another reason than its reservations, or has advanced to
the stage at which everything is given back and placed. -/
theorem buildAt_cases (h : buildAt site known flags none site.act ledger = (o, ledger')) :
    (∃ e, o.fault = some e ∧ e.isUnbalanced = false) ∨
      (o.fault = none ∧ ∃ w, o.block.lines = w.draft.lines ∧ ledger' = w.ledger ∧
        o.block.inst = site.inst ∧
        Advances site (.of [] site.placing) (.of [] []) ⟨ledger, .start known flags⟩ w) := by
  have hbuild : Build.Balanced site (.of [] site.placing) (do site.act; Build.finish) fun _ =>
      .of [] [] :=
    site.balanced_act.bind fun _ => Build.balanced_finish
  have hends := hbuild ⟨ledger, .start known flags⟩ rfl (by simp [Stage.of])
  simp only [buildAt, Site.runScript, ↓reduceIte] at h
  rcases hrun : site.run (do site.act; Build.finish) ⟨ledger, .start known flags⟩ with ⟨e | u, w⟩
  · rw [hrun] at h hends
    cases h
    exact .inl ⟨e, rfl, hends⟩
  · rw [hrun] at h hends
    cases h
    exact .inr ⟨rfl, w, rfl, rfl, rfl, hends⟩

/-- The lines of an instruction fit. -/
theorem buildAt_levelled (h : buildAt site known flags none site.act ledger = (o, ledger')) :
    (∀ e, o.fault = some e → e.isUnbalanced = false) ∧
      (o.fault = none → Levelled [o.block] ledger.labels ledger'.labels) := by
  obtain ⟨e, he, hfault⟩ | ⟨hok, w, hlines, rfl, hinst, hadv⟩ := buildAt_cases h
  · refine ⟨fun e' he' => ?_, by simp [he]⟩
    obtain rfl := Option.some.inj (he.symm.trans he')
    exact hfault
  · obtain ⟨ls, hls, -, γ, hγ⟩ := hadv.lines
    refine ⟨by simp [hok], fun _ => ⟨hadv.labels, γ, fun Γ hanchors hgenerated b hb => ?_⟩⟩
    obtain rfl := List.mem_singleton.mp hb
    have hnames : ∀ name, site.Names name → Γ name = .base := by
      rintro name ⟨a, ha, rfl⟩
      exact hanchors _ (.head _) a (hinst ▸ ha)
    have hlines : o.block.lines = ls := hlines.trans hls
    refine hlines ▸ (hγ Γ ⟨hnames, fun x hx => ?_, hgenerated⟩).1
    obtain ⟨hname, hbase⟩ := Site.names_of_placing hx
    rw [hbase]
    exact hnames x.1 hname

end Function

/-- **Building one site after another** up to the first fault: the blocks, the site with its fault,
and the ledger. -/
inductive Builds : List Site → Ledger → List Built → Option (Site × Fault) → Ledger → Prop
  | done (ledger : Ledger) : Builds [] ledger [] none ledger
  | fault {site sites known flags o e ledger ledger'}
      (hat : Function.buildAt site known flags none site.act ledger = (o, ledger'))
        (ho : o.fault = some e) :
      Builds (site :: sites) ledger [] (some (site, e)) ledger'
  | step {site sites known flags o bs stop ledger ledger₁ ledger'}
      (hat : Function.buildAt site known flags none site.act ledger = (o, ledger₁))
        (ho : o.fault = none)
      (hrest : Builds sites ledger₁ bs stop ledger') : Builds (site :: sites) ledger
        (o.block :: bs) stop ledger'

namespace Builds

variable {sites sites' : List Site} {bs bs' : List Built} {stop : Option (Site × Fault)}
  {ledger ledger₁ ledger' : Ledger}

theorem append (h : Builds sites ledger bs stop ledger₁) (hok : stop = none)
    {stop' : Option (Site × Fault)}
    (h' : Builds sites' ledger₁ bs' stop' ledger') :
    Builds (sites ++ sites') ledger (bs ++ bs') stop' ledger' := by
  induction h with
  | done => exact h'
  | fault => cases hok
  | step hat ho _ ih => exact .step hat ho (ih hok h')

/-- After a fault nothing is built. -/
theorem append_of_fault (h : Builds sites ledger bs stop ledger') (hstop : stop ≠ none)
    (sites' : List Site) :
    Builds (sites ++ sites') ledger bs stop ledger' := by
  induction h with
  | done => exact absurd rfl hstop
  | fault hat ho => exact .fault hat ho
  | step hat ho _ ih => exact .step hat ho (ih hstop)

/-- Every block is that of a site. -/
theorem exists_of_mem (h : Builds sites ledger bs stop ledger') {b : Built} (hb : b ∈ bs) :
    ∃ site ∈ sites, ∃ known flags o l l', Function.buildAt site known flags none site.act l =
      (o, l') ∧
      o.fault = none ∧ o.block = b := by
  induction h with
  | done => cases hb
  | fault => cases hb
  | step hat ho _ ih =>
    rcases List.mem_cons.mp hb with rfl | hb
    · exact ⟨_, .head _, _, _, _, _, _, hat, ho, rfl⟩
    · obtain ⟨site, hsite, hbuilt⟩ := ih hb
      exact ⟨site, .tail _ hsite, hbuilt⟩

/-- Building fails for another reason than its reservations, or gives blocks that fit. -/
theorem levelled (h : Builds sites ledger bs stop ledger') :
    (∀ x, stop = some x → x.2.isUnbalanced = false) ∧
      (stop = none → Levelled bs ledger.labels ledger'.labels) := by
  induction h with
  | done => exact ⟨by simp, fun _ => .nil _⟩
  | fault hat ho =>
    refine ⟨?_, by simp⟩
    rintro _ ⟨⟩
    exact (Function.buildAt_levelled hat).1 _ ho
  | step hat ho _ ih =>
    exact ⟨ih.1, fun hok => ((Function.buildAt_levelled hat).2 ho).append (ih.2 hok)⟩

end Builds

namespace Function

variable {f : Function} {target : Target} {registers : Assignment} {ledger ledger' : Ledger}
  {a : Attempt}

/-- The site of an instruction with its address. -/
def siteOf (f : Function) (target : Target) (registers : Assignment) (x : Nat × Inst) : Site :=
  ⟨target, f, registers, x.1, some x.2⟩

/-- The site of the prologue. -/
def entrySite (f : Function) (target : Target) (registers : Assignment) : Site :=
  ⟨target, f, registers, 0, none⟩

/-- The sites of a function in the order in which they are built. -/
def sites (f : Function) (target : Target) (registers : Assignment) : List Site :=
  f.entrySite target registers :: f.addressed.map (f.siteOf target registers)

theorem builds_buildCode {rest : List (Nat × Inst)} {blocks : List Built}
    (h : f.buildCode target registers (fun _ => none) rest blocks ledger = (a, ledger')) :
    ∃ bs stop, Builds (rest.map (f.siteOf target registers)) ledger bs stop ledger' ∧
      a.blocks = blocks.reverse ++ bs ∧ a.failure = stop.map fun x =>
        ⟨f.name, x.1.address, x.1.inst, x.2⟩ := by
  induction rest generalizing blocks ledger a with
  | nil =>
    cases h
    exact ⟨[], none, .done _, by simp, rfl⟩
  | cons x rest ih =>
    obtain ⟨address, i⟩ := x
    rcases hat : buildAt ⟨target, f, registers, address, some i⟩ (f.entryState blocks address i).1
      (f.entryState blocks address i).2 none (Build.instruction i) ledger with ⟨o, ledger₁⟩
    simp only [buildCode, bind, StateT.bind, modifyGet, MonadStateOf.modifyGet, StateT.modifyGet,
      pure, hat] at h
    cases ho : o.fault with
    | some e =>
      simp only [ho] at h
      cases h
      exact ⟨[], _, .fault hat ho, by simp, rfl⟩
    | none =>
      simp only [ho] at h
      rcases hrest : f.buildCode target registers (fun _ => none) rest
        (o.block :: blocks) ledger₁ with ⟨a', ledger₂⟩
      simp only [bind, StateT.bind, hrest] at h
      cases h
      obtain ⟨bs, stop, hbs, hblocks, hfailure⟩ := ih hrest
      exact ⟨o.block :: bs, stop, .step hat ho hbs, by simpa using hblocks, hfailure⟩

/-- **A function is built** from its prologue on, up to the first fault. -/
theorem builds_build (h : f.build target registers (fun _ => none) ledger = (a, ledger')) :
    ∃ stop, Builds (f.sites target registers) ledger a.blocks stop ledger' ∧
      a.failure = stop.map fun x => ⟨f.name, x.1.address, x.1.inst, x.2⟩ := by
  rcases hat : buildAt ⟨target, f, registers, 0, none⟩ .empty .unknown none Build.prologue
    ledger with ⟨o, ledger₁⟩
  simp only [build, bind, StateT.bind, modifyGet, MonadStateOf.modifyGet, StateT.modifyGet,
    pure, hat] at h
  cases ho : o.fault with
  | some e =>
    simp only [ho] at h
    cases h
    exact ⟨_, .fault hat ho, rfl⟩
  | none =>
    simp only [ho] at h
    obtain ⟨bs, stop, hbs, hblocks, hfailure⟩ := builds_buildCode h
    exact ⟨stop, hblocks ▸ .step hat ho hbs, hfailure⟩

end Function

/-! ### Programs -/

namespace Program

variable {target : Target} {ledger ledger' : Ledger}

/-- The registers that a function is compiled with. -/
def registersOf (target : Target) (f : Function) : Assignment :=
  f.allocate target.arch.machine (f.signature.arrivals target.arch)

/-- The sites of functions in the order in which they are built. -/
def sites (target : Target) (fs : List Function) : List Site :=
  fs.flatMap fun f => f.sites target (registersOf target f)

/-- **Functions are compiled** site after site, up to the first fault; and each of them by itself,
if there is none. -/
theorem builds_compileFunctions {fs : List Function} {cs : List CompiledFunction}
    {failure : Option BuildError}
    (h : compileFunctions target fs ledger = ((cs, failure), ledger')) :
    (∃ stop, Builds (sites target fs) ledger (cs.flatMap (·.attempt.blocks)) stop ledger' ∧
        failure.map (·.fault) = stop.map (·.2)) ∧
      (failure = none → cs.map (·.function) = fs ∧ ∀ c ∈ cs,
        c.registers = registersOf target c.function ∧
        ∃ l l', Builds (c.function.sites target c.registers) l c.attempt.blocks none l') := by
  induction fs generalizing ledger cs failure with
  | nil =>
    cases h
    exact ⟨⟨none, .done _, rfl⟩, by simp⟩
  | cons f fs ih =>
    rcases hbuild : f.build target (registersOf target f) (fun _ => none) ledger with ⟨a, ledger₁⟩
    obtain ⟨stop, hbs, ha⟩ := Function.builds_build hbuild
    simp only [registersOf] at hbuild
    simp only [compileFunctions, bind, StateT.bind, hbuild] at h
    cases stop with
    | some x =>
      simp only [ha, Option.map_some] at h
      cases h
      exact ⟨⟨some x, by simpa [sites] using hbs.append_of_fault (by simp) _, rfl⟩, by simp⟩
    | none =>
      simp only [ha, Option.map_none] at h
      rcases hrest : compileFunctions target fs ledger₁ with ⟨⟨cs', failure'⟩, ledger₂⟩
      simp only [bind, StateT.bind, hrest] at h
      cases h
      obtain ⟨⟨stop, hbs', hstop⟩, heach⟩ := ih hrest
      refine ⟨⟨stop, hbs.append rfl hbs', hstop⟩, fun hok => ⟨congrArg (f :: ·) (heach hok).1, ?_⟩⟩
      exact List.forall_mem_cons.mpr ⟨⟨rfl, _, _, hbs⟩, (heach hok).2⟩

/-- A program is compiled if all its functions are, and its cells are asked for then. -/
theorem compile_ledger {p : Program} {c : Compilation}
    (h : p.compile target ledger = (c, ledger')) :
    ∃ failure ledger₁, compileFunctions target p.functions
      (p.functions.foldl (fun l f => l.define f.name) ledger) =
        ((c.functions, failure), ledger₁) ∧
      ((∃ e, failure = some e ∧ c.outcome = .error e ∧ ledger' = ledger₁) ∨
        (failure = none ∧
          c.outcome = .ok ⟨c.functions.map (·.routine), ledger'.cells, ledger'.externals⟩ ∧
          ledger' = p.reserveCells target.arch c.functions ledger₁)) := by
  rcases hfs : compileFunctions target p.functions
    (p.functions.foldl (fun l f => l.define f.name) ledger) with
    ⟨⟨cs, failure⟩, ledger₁⟩
  simp only [compile, bind, StateT.bind, modify, modifyGet, MonadStateOf.modifyGet,
    StateT.modifyGet, pure, hfs] at h
  cases failure with
  | some e =>
    cases h
    exact ⟨some e, _, hfs, .inl ⟨e, rfl, rfl, rfl⟩⟩
  | none =>
    cases h
    exact ⟨none, ledger₁, hfs, .inr ⟨rfl, rfl, rfl⟩⟩

/-- A program is compiled if all its functions are. -/
theorem compile_cases {p : Program} {c : Compilation} (h : p.compile target ledger = (c, ledger')) :
    ∃ failure ledger₁, compileFunctions target p.functions
      (p.functions.foldl (fun l f => l.define f.name) ledger) =
        ((c.functions, failure), ledger₁) ∧
      ((∃ e, failure = some e ∧ c.outcome = .error e) ∨
        (failure = none ∧ ∃ asm, c.outcome = .ok asm ∧
          asm.functions = c.functions.map (·.routine))) := by
  obtain ⟨failure, ledger₁, hfs, ⟨e, he, hout, -⟩ | ⟨hnone, hout, -⟩⟩ := compile_ledger h
  · exact ⟨failure, ledger₁, hfs, .inl ⟨e, he, hout⟩⟩
  · exact ⟨failure, ledger₁, hfs, .inr ⟨hnone, _, hout, rfl⟩⟩

theorem compile_of_ok {p : Program} {c : Compilation} {asm : Assembly}
    (h : p.compile target ledger = (c, ledger')) (hok : c.outcome = .ok asm) :
    ∃ ledger₁, compileFunctions target p.functions
      (p.functions.foldl (fun l f => l.define f.name) ledger) =
        ((c.functions, none), ledger₁) ∧
          asm = ⟨c.functions.map (·.routine), ledger'.cells, ledger'.externals⟩ ∧
      ledger' = p.reserveCells target.arch c.functions ledger₁ := by
  obtain ⟨failure, ledger₁, hfs, ⟨e, -, hout, -⟩ | ⟨rfl, hout, hledger⟩⟩ := compile_ledger h
  · cases hout.symm.trans hok
  · exact ⟨ledger₁, hfs, Except.ok.inj (hok.symm.trans hout), hledger⟩

theorem labels_define (ledger : Ledger) (name : String) :
    (ledger.define name).labels = ledger.labels := by
  unfold Ledger.define
  split <;> rfl

theorem labels_defines (fs : List Function) (ledger : Ledger) :
    (fs.foldl (fun l f => l.define f.name) ledger).labels = ledger.labels := by
  induction fs generalizing ledger with
  | nil => rfl
  | cons f fs ih =>
    rw [List.foldl_cons, ih]
    exact labels_define ledger f.name

/-- **Compiling a program** fails for another reason than its reservations, or gives blocks that
fit. -/
theorem levelled_compile {p : Program} {c : Compilation}
    (h : p.compile target ledger = (c, ledger')) :
    (∀ e, c.outcome = .error e → e.fault.isUnbalanced = false) ∧
      ∀ asm, c.outcome = .ok asm → asm.functions = c.functions.map (·.routine) ∧
        ∃ n, Levelled (c.functions.flatMap (·.attempt.blocks)) ledger.labels n := by
  constructor
  · intro e he
    obtain ⟨failure, ledger₁, hfs, ⟨e', rfl, hout, -⟩ | ⟨-, hout, -⟩⟩ := compile_ledger h
    · obtain rfl := Except.error.inj (hout.symm.trans he)
      obtain ⟨⟨stop, hbs, hstop⟩, -⟩ := builds_compileFunctions hfs
      obtain ⟨x, rfl, hx⟩ := Option.map_eq_some_iff.mp hstop.symm
      exact (congrArg Fault.isUnbalanced hx).symm.trans (hbs.levelled.1 x rfl)
    · cases hout.symm.trans he
  · intro asm hok
    obtain ⟨ledger₁, hfs, rfl, -⟩ := compile_of_ok h hok
    obtain ⟨⟨stop, hbs, hstop⟩, -⟩ := builds_compileFunctions hfs
    have hlevelled := hbs.levelled.2 (Option.map_eq_none_iff.mp hstop.symm)
    rw [labels_defines] at hlevelled
    exact ⟨rfl, _, hlevelled⟩

end Program

/-! ### Reservations -/

/-- Releasing a reservation that is not on top is a fault. -/
theorem Build.release_of_not_top (s : Site) (w : Work) (res : Reservation)
    (h : w.draft.reserved.head?.map (·.ticket) ≠ some res.ticket) :
    ∃ e, (s.run (release res) w).1 = .error e ∧ e.isUnbalanced = true := by
  have hbind : ∀ f : Draft → Build Unit, s.run (draft >>= f) w = s.run (f w.draft) w := fun _ => rfl
  have hrun : s.run (release res) w = s.run (release.failed res) w := by
    unfold release
    rw [hbind]
    cases hw : w.draft.reserved with
    | nil => rfl
    | cons top rest =>
      have hne : ¬(top.ticket == res.ticket) = true := by simpa [hw] using h
      exact congrArg (s.run · w) (if_neg hne)
  exact ⟨_, congrArg Prod.fst hrun, rfl⟩

/-- **Reservations are balanced.** Whatever program is compiled for whatever machine, no reservation
is released out of order and none is left open. The computation that builds an instruction or a
prologue ends with nothing reserved, unless it faults for another reason; and a release out of order
could not go unnoticed, because it is a fault to release a reservation that is not on top. -/
theorem Program.reservations_balanced (p : Program) (target : Target) (ledger : Ledger) :
    (∀ e, (p.compile target ledger).1.outcome = .error e → e.fault.isUnbalanced = false) ∧
      (∀ (s : Site) (w : Work), w.draft.reserved = [] →
        (∀ w', s.run s.act w = (.ok (), w') → w'.draft.reserved = []) ∧
          ∀ e w', s.run s.act w = (.error e, w') → e.isUnbalanced = false) ∧
      ∀ (s : Site) (w : Work) (res : Reservation), w.draft.reserved.head?.map (·.ticket) ≠
        some res.ticket →
        ∃ e, (s.run (Build.release res) w).1 = .error e ∧ e.isUnbalanced = true := by
  refine ⟨(levelled_compile (p := p) rfl).1, fun s w hw => ?_, Build.release_of_not_top⟩
  have hends := s.balanced_act w hw (by simp [Stage.of])
  refine ⟨fun w' hrun => ?_, fun e w' hrun => ?_⟩
  · rw [hrun] at hends
    exact hends.reserved
  · rw [hrun] at hends
    exact hends

end Octet
