import Octet.Proofs.Balance.Compilation
import Octet.Proofs.Emitted.Instructions
import Octet.Proofs.WellFormed

/-!
# Building functions

Registers are handed out from the pools of the machine or are those in which parameters arrive, and
each is as wide as its variable. So the operands of a function are known where the symbols of the
program are, and what is built for its instructions refers to these symbols. If operands also have
types of their own, and no pair is taken for a byte, it consists of instructions of the machine.

## Main definitions

* `Built.Within` — blocks of instructions with some symbols only, of the machine if asked for
* `Program.Supplied` — symbols that suffice for a program

## Main results

* `Function.mem_registers_of_allocate` — variables are in registers of the machine
* `Builds.grows` — what building does to the ledger, and what the code refers to
* `Program.Supplied.keeps` — what the sites of a function of a program refer to
-/

namespace Octet

open Assembly

/-! ### Registers of variables -/

theorem Arch.mem_registers_of_mem_pool {m : Arch} {t : Ty} {once : Bool} {r : Register}
    (h : r ∈ m.pool t once) :
    r ∈ m.registers := by
  have hpools : ∀ once, ∀ r ∈ m.bytePool once ++ m.wordPool once, r ∈ m.registers := by
    cases m <;> decide
  -- pointers are offered the same registers in another order
  have hfrom : ∀ offered : List Register, (∀ q ∈ offered, q ∈ m.registers) →
      (r ∈ if t.isPointer then offered.filter (·.isPointer) ++ offered.filter fun r =>
        !r.isPointer else offered) →
      r ∈ m.registers := by
    intro offered hoffered hr
    split at hr
    · rcases List.mem_append.mp hr with hr | hr
      · exact hoffered r (List.mem_of_mem_filter hr)
      · exact hoffered r (List.mem_of_mem_filter hr)
    · exact hoffered r hr
  refine hfrom _ (fun q hq => ?_) h
  split at hq
  · exact hpools once q (List.mem_append_left _ hq)
  · exact hpools once q (List.mem_append_right _ hq)
  · cases hq

/-- **Variables are in registers of the machine.** -/
theorem Function.mem_registers_of_allocate {f : Function} (hf : f.Indexed) (m : Arch)
    (σ : Signature) {v : Variable}
    (hv : v ∈ f.vars) {r : Register} (hr : (f.allocate m.machine (σ.arrivals m)).get v = some r) :
    r ∈ m.registers := by
  obtain ⟨a, hg⟩ := exists_gives hf hv hr
  rcases hg.offered with ⟨once, hpool⟩ | harrives
  · exact Arch.mem_registers_of_mem_pool hpool
  · exact Arch.mem_registers_of_mem_arrivals harrives

/-! ### Functions -/

/-- The block consists of instructions that may be emitted. -/
def Built.Within (m : Arch) (X : Prop) (N : Set String) (b : Built) : Prop :=
  ∀ i, Line.instr i ∈ b.lines → i.Known m X N

theorem Built.Within.mono {m : Arch} {X : Prop} {N N' : Set String} {b : Built} (h : b.Within m X N)
    (hN : N ⊆ N') :
    b.Within m X N' :=
  fun i hi => (h i hi).mono hN

namespace Function

variable {ledger ledger' : Ledger} {D : List String} {X : Prop} {G : Set String}

theorem grows_buildAt {site : Site} {known : Constants} {flags : FlagState} {o : Outcome}
    {K : Vocabulary site D X}
    (hact : Build.Keeps K site.act) (hK : K.names ⊆ G) (hD : ledger.defined = D)
    (h : buildAt site known flags none site.act ledger = (o, ledger')) :
    ledger.Grows site.target.arch ledger' ∧
      (o.fault = none → o.block.Within site.target.arch X (G ∪ ledger'.names)) := by
  have hkeeps : Build.Keeps K (do site.act; Build.finish) := hact.bind fun _ => Build.keeps_finish
  have hruns := hkeeps G ⟨ledger, .start known flags⟩ hD (hK.trans Set.subset_union_left)
    (Draft.within_start known flags)
  simp only [buildAt, Site.runScript, ↓reduceIte] at h
  rcases hrun : site.run (do site.act; Build.finish) ⟨ledger, .start known flags⟩ with ⟨e | u, w⟩
  · rw [hrun] at h
    cases h
    exact ⟨(hruns _ w hrun).1, by simp⟩
  · rw [hrun] at h
    cases h
    exact ⟨(hruns _ w hrun).1, fun _ => ((hruns _ w hrun).2 u rfl).1.lines⟩

end Function

/-- **Building site after site** makes the ledger grow, and the code refers to the symbols given or
in the ledger, if that of each site does. -/
theorem Builds.grows {m : Arch} {sites : List Site} {ledger ledger' : Ledger} {bs : List Built}
    {stop : Option (Site × Fault)} {D : List String} {X : Prop} {G : Set String}
    (h : Builds sites ledger bs stop ledger')
    (hacts : ∀ s ∈ sites, s.target.arch = m ∧ ∃ K : Vocabulary s D X, K.names ⊆ G ∧
      Build.Keeps K s.act)
    (hD : ledger.defined = D) : ledger.Grows m ledger' ∧ ∀ b ∈ bs,
      b.Within m X (G ∪ ledger'.names) := by
  induction h with
  | done => exact ⟨.refl _ _, by simp⟩
  | fault hat ho =>
    obtain ⟨rfl, K, hK, hact⟩ := hacts _ (.head _)
    exact ⟨(Function.grows_buildAt hact hK hD hat).1, by simp⟩
  | step hat ho _ ih =>
    obtain ⟨rfl, K, hK, hact⟩ := hacts _ (.head _)
    obtain ⟨hgrows, hknown⟩ := Function.grows_buildAt hact hK hD hat
    obtain ⟨hgrows', hrest⟩ := ih (fun s hs => hacts s (.tail _ hs)) (hgrows.defined.trans hD)
    refine ⟨hgrows.trans hgrows', List.forall_mem_cons.mpr ⟨?_, hrest⟩⟩
    exact (hknown ho).mono (Set.union_subset_union_right G hgrows'.subset)

/-! ### Programs -/

namespace Program

variable {l : Listing} {p : Program} {target : Target} {ledger ledger' : Ledger}
  {D : List String} {X : Prop} {G : Set String}

/-- **Symbols that suffice for a program** where the functions `D` are defined. -/
structure Supplied (p : Program) (target : Target) (D : List String) (G : Set String) : Prop where
  cells : ∀ r ∈ target.arch.cells, r.address ∈ G
  defined : ∀ n ∈ D, n ∈ G
  globals : ∀ v ∈ p.globals, v.label ∈ G
  memory : ∀ f ∈ p.functions, ∀ v ∈ f.vars, (registersOf target f).get v = none → v.label ∈ G
  /-- The slots of parameters that travel in memory, of functions of the program and of those that
  are called. -/
  slots : ∀ f ∈ p.functions, ∀ σ,
    (σ = f.signature ∨ ∃ args dest, .call σ args dest ∈ f.code ∧ σ.name ∈ D) →
    ∀ x ∈ σ.params.zip (σ.arrivals target.arch), x.2 = none → x.1.slot ∈ G
  addresses : ∀ f ∈ p.functions, ∀ i ∈ f.code, ∀ o ∈ i.operands, ∀ n ∈ o.address?, n ∈ G

theorem supplied_univ (p : Program) (target : Target) (D : List String) :
    p.Supplied target D Set.univ := by
  constructor <;> simp

theorem Supplied.has (hG : p.Supplied target D G) (hbuild : l.build = .ok p) {f : Function}
    (hf : f ∈ p.functions)
    {s : Site} (hs : s.target = target ∧ s.registers = registersOf target f) {K : Vocabulary s D X}
    (hK : K.names = G) {v : Variable} (hv : v ∈ f.vars ∨ v ∈ p.globals) : K.Has v := by
  obtain ⟨rfl, hregisters⟩ := hs
  rw [← hK] at hG
  rcases hv with hv | hv
  · have hindexed := Listing.indexed_of_build hbuild hf
    refine ⟨fun r hr => ?_, fun hnone => hG.memory f hf v hv (hregisters ▸ hnone)⟩
    rw [hregisters] at hr
    refine ⟨Function.mem_registers_of_allocate hindexed _ _ hv hr, fun _ => ?_⟩
    exact (Function.separates_allocate hindexed _ _).width v hv r hr
  · refine ⟨fun r hr => ?_, fun _ => hG.globals v hv⟩
    simp [Assignment.get, Listing.isStatic_of_build hbuild hv] at hr

/-- **The sites of a function of a program** refer to known symbols only, where the symbols
suffice. -/
theorem Supplied.keeps (hG : p.Supplied target D G) (hbuild : l.build = .ok p) {f : Function}
    (hf : f ∈ p.functions) (hown : X → ∀ i ∈ f.code, ∀ o ∈ i.operands, o.isOwn = true)
    (hpairs : X → ∀ i ∈ f.code, ∀ x ∈ i.handed target.arch (registersOf target f), x.isPair = false)
    {s : Site} (hs : s ∈ f.sites target (registersOf target f)) :
    s.target.arch = target.arch ∧ ∃ K : Vocabulary s D X, K.names ⊆ G ∧ Build.Keeps K s.act := by
  rcases List.mem_cons.mp hs with rfl | hs
  · refine ⟨rfl, ⟨G, hG.cells, hG.defined⟩, le_rfl,
      Build.keeps_prologue (fun v hv => ?_) (hG.slots f hf _ (.inl rfl))⟩
    exact hG.has hbuild hf ⟨rfl, rfl⟩ rfl (.inl hv)
  · obtain ⟨x, hx, rfl⟩ := List.mem_map.mp hs
    have hx : x.2 ∈ f.code := Function.mem_code_of_at? (Function.mem_addressed.mp hx)
    refine ⟨rfl, ⟨G, hG.cells, hG.defined⟩, le_rfl,
      Build.keeps_instruction ⟨fun o ho => ⟨fun v hv => ?_, ?_, ?_⟩, ?_, ?_⟩⟩
    · exact hG.has hbuild hf ⟨rfl, rfl⟩ rfl (Listing.declared_of_build hbuild hf hx ⟨o, ho, hv⟩)
    · exact hG.addresses f hf x.2 hx o ho
    · exact fun h => hown h x.2 hx o ho
    · exact fun callee args d hcall hdefined => hG.slots f hf callee
        (.inr ⟨args, d, hcall ▸ hx, hdefined⟩)
    · exact fun h => hpairs h x.2 hx

end Program

end Octet
