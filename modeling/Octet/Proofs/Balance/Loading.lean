import Octet.Proofs.Balance.Compilation
import Octet.Proofs.Generated.State

/-!
# Levels of loaded code

Loaded code has positions where the code of a function had lines: labels, comments and directives of
the assembler take no position of their own. None of these changes a level, so the levels before the
lines of a function are levels of positions. Lines that lead from a level to another one have such a
*profile*, and so have blocks of lines that each lead back to where they started; these start at a
position of the level at which functions are entered.

Whether levels fit depends on the levels that labels stand for. Generated labels are numbered
through, so their levels can be chosen one by one; every other label stands for the level at which
functions are entered, if it is not named as a generated one.

## Main definitions

* `Profile` — the levels of the positions of lines
* `Simulator.Code.Levelled` — loaded code whose levels fit
* `Program.AnchorsApart` — no anchor is named as a generated label

## Main results

* `exists_profile_of_blocks` — blocks have a profile
* `Simulator.Code.levelled_load` — the code loaded from lines with a profile fits
* `Program.exists_levelled_code` — compiled code fits
-/

namespace Octet

open Assembly

/-! ### Positions -/

namespace Assembly.Line

theorem count_take_le (ls : List Line) (k : Nat) : count (ls.take k) ≤ count ls := by
  conv_rhs => rw [← List.take_append_drop k ls, count_append]
  exact Nat.le_add_right _ _

/-- A line that is executed takes a position. -/
theorem count_take_succ {ls : List Line} {k : Nat} {line : Line} (h : ls[k]? = some line) :
    count (ls.take (k + 1)) = count (ls.take k) + count [line] := by
  rw [List.take_add_one, h, count_append]
  rfl

end Assembly.Line

/-- A line that is not executed keeps the level. -/
theorem Fits.eq_of_executed? {Γ : Labelling} {l l' : Level} {line : Line} (h : Fits Γ l line l')
    (hline : line.executed? = none) : l' = l := by
  cases line with
  | label name => exact h.2
  | comment text => exact h
  | instr i =>
    have hdot : i.op.toList.head? = some '.' := by simpa [Line.executed?] using hline
    have hplain : i.op ∉ specialOps := by
      intro hmem
      have hall : ∀ op ∈ specialOps, op.toList.head? ≠ some '.' := by decide
      exact hall _ hmem hdot
    have hkind : i.kind = .straight := kind_of_plain hplain i.args
    have hafter : l.after? i = some l := Level.after?_of_plain hplain l i.args
    have hfits : l = l' := by simpa [Fits, hkind, hafter] using h
    exact hfits.symm

/-- **The levels of the positions of lines**: from a level to another one, and such that the levels
around every line fit. -/
structure Profile (Γ : Labelling) (l : Level) (ls : List Line) (l' : Level) (levels : Nat → Level) :
    Prop where
  start : levels 0 = l
  stop : levels (Line.count ls) = l'
  fits : ∀ k line, ls[k]? = some line →
    Fits Γ (levels (Line.count (ls.take k))) line (levels (Line.count (ls.take (k + 1))))

namespace Profile

variable {Γ : Labelling} {l l' l'' : Level} {ls ks : List Line} {levels levels' : Nat → Level}

theorem nil (Γ : Labelling) (l : Level) : Profile Γ l [] l fun _ => l := ⟨rfl, rfl, by simp⟩

theorem exists_single {line : Line} (h : Fits Γ l line l') :
    ∃ levels, Profile Γ l [line] l' levels := by
  cases hline : line.executed? with
  | none =>
    obtain rfl := h.eq_of_executed? hline
    refine ⟨fun _ => l', rfl, rfl, fun k line' hk => ?_⟩
    obtain ⟨rfl, rfl⟩ : k = 0 ∧ line = line' := by simpa [List.getElem?_singleton] using hk
    exact h
  | some i =>
    have hcount : Line.count [line] = 1 := by simp [Line.count, hline]
    refine ⟨fun n => if n = 0 then l else l', rfl, by simp [hcount], fun k line' hk => ?_⟩
    obtain ⟨rfl, rfl⟩ : k = 0 ∧ line = line' := by simpa [List.getElem?_singleton] using hk
    rw [Line.count_take_succ hk, hcount]
    exact h

/-- Profiles are put together; the position between the two belongs to both. -/
theorem exists_append (h : Profile Γ l ls l' levels) (h' : Profile Γ l' ks l'' levels') :
    ∃ levels'', Profile Γ l (ls ++ ks) l'' levels'' ∧
      ∀ n, levels'' (Line.count ls + n) = levels' n := by
  let joined : Nat → Level :=
    fun n => if n ≤ Line.count ls then levels n else levels' (n - Line.count ls)
  have hfirst : ∀ n ≤ Line.count ls, joined n = levels n := fun n hn => if_pos hn
  have hsecond : ∀ n, joined (Line.count ls + n) = levels' n := by
    intro n
    rcases Nat.eq_zero_or_pos n with rfl | hn
    · rw [Nat.add_zero, hfirst _ le_rfl, h.stop, h'.start]
    · simp only [joined]
      rw [if_neg (by omega), Nat.add_sub_cancel_left]
  refine ⟨joined, ⟨(hfirst 0 (Nat.zero_le _)).trans h.start, ?_, fun k line hk => ?_⟩, hsecond⟩
  · rw [Line.count_append, hsecond, h'.stop]
  · rcases Nat.lt_or_ge k ls.length with hlt | hge
    · rw [List.getElem?_append_left hlt] at hk
      rw [List.take_append_of_le_length hlt.le, List.take_append_of_le_length hlt,
        hfirst _ (Line.count_take_le ls k), hfirst _ (Line.count_take_le ls (k + 1))]
      exact h.fits k line hk
    · obtain ⟨m, rfl⟩ := Nat.exists_eq_add_of_le hge
      rw [List.getElem?_append_right hge, Nat.add_sub_cancel_left] at hk
      rw [List.take_length_add_append, Nat.add_assoc, List.take_length_add_append,
        Line.count_append, Line.count_append, hsecond, hsecond]
      exact h'.fits m line hk

end Profile

theorem Leads.exists_profile {Γ : Labelling} {l l' : Level} {ls : List Line} (h : Leads Γ l ls l') :
    ∃ levels, Profile Γ l ls l' levels := by
  induction ls generalizing l with
  | nil =>
    obtain rfl : l = l' := h
    exact ⟨_, .nil Γ l⟩
  | cons line ls ih =>
    obtain ⟨k, hline, hrest⟩ := h
    obtain ⟨levels, hlevels⟩ := Profile.exists_single hline
    obtain ⟨levels', hlevels'⟩ := ih hrest
    obtain ⟨joined, hjoined, -⟩ := hlevels.exists_append hlevels'
    exact ⟨joined, hjoined⟩

/-- The position of a block of lines among others. -/
def Built.position (bs : List Built) (j : Nat) : Nat := Line.count ((bs.take j).flatMap (·.lines))

/-- **Blocks that lead back to where they started have a profile**, and each starts at that
level. -/
theorem exists_profile_of_blocks {Γ : Labelling} {bs : List Built}
    (h : ∀ b ∈ bs, Leads Γ .base b.lines .base) :
    ∃ levels, Profile Γ .base (bs.flatMap (·.lines)) .base levels ∧
      ∀ j, levels (Built.position bs j) = .base := by
  induction bs with
  | nil => exact ⟨_, .nil Γ _, fun _ => rfl⟩
  | cons b bs ih =>
    obtain ⟨levels, hlevels⟩ := (h b (.head _)).exists_profile
    obtain ⟨levels', hlevels', hstarts⟩ := ih fun c hc => h c (.tail _ hc)
    obtain ⟨joined, hjoined, hsecond⟩ := hlevels.exists_append hlevels'
    refine ⟨joined, by simpa using hjoined, fun j => ?_⟩
    cases j with
    | zero => exact hjoined.start
    | succ j =>
      have hposition : Built.position (b :: bs) (j + 1) = Line.count b.lines +
          Built.position bs j := by
        simp [Built.position, Line.count_append]
      rw [hposition, hsecond, hstarts]

/-! ### Loaded code -/

namespace Simulator.Code

/-- **Loaded code whose levels fit.** -/
structure Levelled (Γ : Labelling) (c : Code) (levels : Nat → Level) : Prop where
  start : levels 0 = .base
  instr : ∀ n p, c.instrs[n]? = some p → Fits Γ (levels n) (.instr p.instr) (levels (n + 1))
  label : ∀ name n, c.labels.lookup name = some n → Γ name = levels n

theorem map_placed (ls : List Line) (n : Nat) :
    ((ls.zipIdx n).filterMap placed?).map (·.instr) = ls.filterMap Line.executed? := by
  induction ls generalizing n with
  | nil => rfl
  | cons line ls ih =>
    cases line with
    | label name => exact ih (n + 1)
    | comment text => exact ih (n + 1)
    | instr i =>
      rw [List.zipIdx_cons]
      by_cases hdot : i.op.toList.head? = some '.'
      · simp [placed?, Line.executed?, hdot, ih]
      · simp [placed?, Line.executed?, hdot, ih]

/-- An instruction of loaded code stood in a line, and its position is that of the line. -/
theorem exists_line_of_instr {ls : List Line} {n : Nat} {p : Placed}
    (h : (ls.zipIdx.filterMap placed?)[n]? = some p) :
    ∃ k, ls[k]? = some (.instr p.instr) ∧ Line.executed? (.instr p.instr) = some p.instr ∧
      Line.count (ls.take k) = n := by
  have hexecuted : (ls.filterMap Line.executed?)[n]? = some p.instr := by
    rw [← map_placed ls 0, List.getElem?_map, h]
    rfl
  obtain ⟨hn, hinstr⟩ := List.getElem?_eq_some_iff.mp hexecuted
  have hsplit : ls.filterMap Line.executed? =
      (ls.filterMap Line.executed?).take n ++ p.instr :: (ls.filterMap Line.executed?).drop
        (n + 1) := by
    rw [← hinstr, List.getElem_cons_drop, List.take_append_drop]
  obtain ⟨before, rest, hls, hbefore, hrest⟩ := List.filterMap_eq_append_iff.mp hsplit
  obtain ⟨skipped, line, after, rfl, hskipped, hline, -⟩ := List.filterMap_eq_cons_iff.mp hrest
  have hcount : Line.count (before ++ skipped) = n := by
    rw [Line.count_append, Line.count, Line.count, hbefore, List.filterMap_eq_nil_iff.mpr hskipped]
    simpa using hn.le
  obtain rfl : line = .instr p.instr := by
    cases line with
    | instr i =>
      have hi : ¬i.op.toList.head? = some '.' ∧ i = p.instr := by simpa [Line.executed?] using hline
      rw [hi.2]
    | label name => cases hline
    | comment text => cases hline
  subst hls
  refine ⟨(before ++ skipped).length, ?_, hline, ?_⟩
  · simp [← List.append_assoc]
  · rwa [← List.append_assoc, List.take_left]

theorem line_of_placed {ls : List Line} {m : Nat} {p : Placed}
    (h : p ∈ (ls.zipIdx m).filterMap placed?) :
    m ≤ p.line ∧ p.line < m + ls.length := by
  obtain ⟨⟨line, i⟩, hmem, hplaced⟩ := List.mem_filterMap.mp h
  obtain ⟨hle, hlt, -⟩ := List.mem_zipIdx hmem
  cases line with
  | instr j =>
    simp only [placed?] at hplaced
    split at hplaced
    · cases hplaced
    · cases hplaced
      exact ⟨hle, hlt⟩
  | label name => cases hplaced
  | comment text => cases hplaced

/-- The instructions before a line are those of the lines before it. -/
theorem countP_placed (ls : List Line) (k : Nat) :
    (ls.zipIdx.filterMap placed?).countP (·.line < k) = Line.count (ls.take k) := by
  have hsplit : ls.zipIdx = (ls.take k).zipIdx ++ (ls.drop k).zipIdx (0 + (ls.take k).length) := by
    rw [← List.zipIdx_append, List.take_append_drop]
  have hbefore : ((ls.take k).zipIdx.filterMap placed?).countP (·.line < k) =
      Line.count (ls.take k) := by
    rw [Line.count, ← map_placed _ 0, List.length_map, List.countP_eq_length]
    intro p hp
    have hline := line_of_placed hp
    simp only [List.length_take, decide_eq_true_eq] at hline ⊢
    omega
  have hafter : (((ls.drop k).zipIdx (0 + (ls.take k).length)).filterMap placed?).countP
      (·.line < k) = 0 := by
    rw [List.countP_eq_zero]
    intro p hp
    have hline := line_of_placed hp
    simp only [List.length_take, List.length_drop, decide_eq_true_eq] at hline ⊢
    omega
  rw [hsplit, List.filterMap_append, List.countP_append, hbefore, hafter, Nat.add_zero]

/-- A label of loaded code stood in a line, and its position is that of the line. -/
theorem exists_line_of_label {f : Assembly.Routine} {name : String} {n : Nat}
    (h : (load f f).labels.lookup name = some n) :
    ∃ k, f.code[k]? = some (.label name) ∧ Line.count (f.code.take k) = n := by
  obtain ⟨before, after, hlabels, -⟩ := List.lookup_eq_some_iff.mp h
  have hmem : (name, n) ∈ (load f f).labels := by simp [hlabels]
  simp only [load, List.mem_map, List.mem_reverse, List.mem_filterMap, countP_placed] at hmem
  obtain ⟨⟨_, _⟩, ⟨⟨line, k⟩, hline, hlabel⟩, heq⟩ := hmem
  obtain ⟨rfl, rfl⟩ := Prod.mk.inj heq
  cases line with
  | label name =>
    cases hlabel
    exact ⟨_, List.mem_zipIdx_iff_getElem?.mp hline, rfl⟩
  | instr i => cases hlabel
  | comment text => cases hlabel

/-- **The code loaded from lines with a profile fits.** -/
theorem levelled_load {Γ : Labelling} {f : Assembly.Routine} {l : Level} {levels : Nat → Level}
    (h : Profile Γ .base f.code l levels) : (load f f).Levelled Γ levels where
  start := h.start
  instr n p hp := by
    have hp' : (f.code.zipIdx.filterMap placed?)[n]? = some p := by simpa [load] using hp
    obtain ⟨k, hk, hexecuted, rfl⟩ := exists_line_of_instr hp'
    have hcount : Line.count (f.code.take (k + 1)) = Line.count (f.code.take k) + 1 := by
      rw [Line.count_take_succ hk]
      simp [Line.count, hexecuted]
    exact hcount ▸ h.fits k _ hk
  label name n hn := by
    obtain ⟨k, hk, rfl⟩ := exists_line_of_label hn
    exact (h.fits k _ hk).1

end Simulator.Code

/-! ### Labels -/

theorem toList_generatedLabel (n : Nat) :
    (generatedLabel n).toList = '_' :: 'L' :: Nat.toDigits 10 n := by
  simp [generatedLabel, String.toList_append, Nat.toList_repr]

theorem generatedLabel_injective : Function.Injective generatedLabel := by
  intro n k h
  have hdigits : Nat.toDigits 10 n = Nat.toDigits 10 k := by
    simpa [toList_generatedLabel] using congrArg String.toList h
  simpa using congrArg (Nat.ofDigitChars 10 · 0) hdigits

/-- The levels of generated labels can be chosen one by one. -/
theorem exists_labelling (γ : Nat → Level) :
    ∃ Γ : Labelling, (∀ i, Γ (generatedLabel i) = γ i) ∧
      ∀ name, (∀ i, name ≠ generatedLabel i) → Γ name = .base := by
  refine ⟨Function.extend generatedLabel γ fun _ => .base,
    generatedLabel_injective.extend_apply γ _, ?_⟩
  intro name hname
  refine Function.extend_apply' _ _ _ ?_
  rintro ⟨i, hi⟩
  exact hname i hi.symm

/-- **No anchor of the program is named as a generated label.** -/
def Program.AnchorsApart (p : Program) : Prop :=
  ∀ f ∈ p.functions, ∀ i ∈ f.code, ∀ a, i.anchor? = some a → ∀ n, a.name ≠ generatedLabel n

/-! ### Compiled code -/

/-- **The blocks are those of the instructions** at the sites. -/
theorem Builds.insts {sites : List Site} {ledger ledger' : Ledger} {bs : List Built}
    {stop : Option (Site × Fault)}
    (h : Builds sites ledger bs stop ledger') (hok : stop = none) :
    bs.filterMap (·.inst) = sites.filterMap (·.inst) := by
  induction h with
  | done => rfl
  | fault => cases hok
  | step hat ho _ ih =>
    obtain ⟨e, he, -⟩ | ⟨-, w, -, -, hinst, -⟩ := Function.buildAt_cases hat
    · cases he.symm.trans ho
    · rw [List.filterMap_cons, List.filterMap_cons, hinst, ih hok]

theorem Function.insts_sites (f : Function) (target : Target) (registers : Assignment) :
    (f.sites target registers).filterMap (·.inst) = f.code := by
  simp [sites, entrySite, siteOf, addressed, Function.comp_def]

namespace Program

variable {target : Target} {ledger ledger' : Ledger}

/-- A program that was compiled has all its functions compiled. -/
theorem functions_of_compile {p : Program} {c : Compilation} {asm : Assembly}
    (h : p.compile target ledger = (c, ledger')) (hok : c.outcome = .ok asm) :
    c.functions.map (·.function) = p.functions ∧
      ∀ d ∈ c.functions, d.attempt.blocks.filterMap (·.inst) = d.function.code := by
  obtain ⟨ledger₁, hfs, -⟩ := compile_of_ok h hok
  obtain ⟨hfunctions, heach⟩ := (builds_compileFunctions hfs).2 rfl
  refine ⟨hfunctions, fun d hd => ?_⟩
  obtain ⟨-, l, l', hbs⟩ := heach d hd
  exact (hbs.insts rfl).trans (d.function.insts_sites target _)

theorem names_of_compile {p : Program} {c : Compilation} {asm : Assembly}
    (h : p.compile target ledger = (c, ledger')) (hok : c.outcome = .ok asm) :
    asm.functions.map (·.name) = p.functions.map (·.name) := by
  rw [((levelled_compile h).2 asm hok).1, ← (functions_of_compile h hok).1, List.map_map,
    List.map_map]
  rfl

end Program

/-- Functions with names of their own are loaded with their own labels. -/
theorem Simulator.Code.ofAssembly_of_nodup {asm : Assembly}
    (h : (asm.functions.map (·.name)).Nodup) :
    ofAssembly asm = asm.functions.map fun f => load f f := by
  refine List.map_congr_left fun f hf => ?_
  have hfind : asm.functions.reverse.find? (·.name == f.name) = some f := by
    cases hg : asm.functions.reverse.find? (·.name == f.name) with
    | none => simpa using List.find?_eq_none.mp hg f (List.mem_reverse.mpr hf)
    | some g =>
      have hname : g.name = f.name := by simpa using List.find?_some hg
      have hmem : g ∈ asm.functions := List.mem_reverse.mp (List.mem_of_find?_eq_some hg)
      rw [List.inj_on_of_nodup_map h hmem hf hname]
  rw [hfind]
  rfl

/-- **Compiled code fits.** For levels of the labels that are the same in all functions, the code of
every function fits, and the code of each instruction starts at the level at which functions are
entered. -/
theorem Program.exists_levelled_code {p : Program} {target : Target} {ledger ledger' : Ledger}
    {c : Compilation}
    {asm : Assembly} (hnames : (p.functions.map (·.name)).Nodup) (hanchors : p.AnchorsApart)
    (h : p.compile target ledger = (c, ledger')) (hok : c.outcome = .ok asm) :
    ∃ Γ : Labelling, ∀ code ∈ Simulator.Code.ofAssembly asm, ∃ levels, code.Levelled Γ levels ∧
      ∀ f ∈ c.functions, f.function.name = code.name →
        ∀ j, levels (Built.position f.attempt.blocks j) = .base := by
  obtain ⟨hroutines, n, -, γ, hγ⟩ := (levelled_compile h).2 asm hok
  obtain ⟨hfunctions, hinsts⟩ := functions_of_compile h hok
  obtain ⟨Γ, hgenerated, hothers⟩ := exists_labelling γ
  have hleads : ∀ d ∈ c.functions, ∀ b ∈ d.attempt.blocks, Leads Γ .base b.lines .base := by
    intro d hd b hb
    refine hγ Γ (fun b hb a ha => ?_) (fun i _ _ => hgenerated i) b
      (List.mem_flatMap.mpr ⟨d, hd, hb⟩)
    obtain ⟨d, hd, hb⟩ := List.mem_flatMap.mp hb
    obtain ⟨i, hi, ha⟩ := Option.bind_eq_some_iff.mp ha
    have hmem : d.function ∈ p.functions := hfunctions ▸ List.mem_map_of_mem hd
    have hcode : i ∈ d.function.code := hinsts d hd ▸ List.mem_filterMap.mpr ⟨b, hb, hi⟩
    exact hothers _ (hanchors _ hmem i hcode a ha)
  have hnodup : (c.functions.map (·.function.name)).Nodup := by
    have hnames := hnames
    rwa [← hfunctions, List.map_map] at hnames
  refine ⟨Γ, fun code hcode => ?_⟩
  rw [Simulator.Code.ofAssembly_of_nodup (names_of_compile h hok ▸ hnames), hroutines,
    List.map_map] at hcode
  obtain ⟨d, hd, rfl⟩ := List.mem_map.mp hcode
  obtain ⟨levels, hprofile, hstarts⟩ := exists_profile_of_blocks (hleads d hd)
  refine ⟨levels, Simulator.Code.levelled_load hprofile, fun f hf hname j => ?_⟩
  rw [List.inj_on_of_nodup_map hnodup hf hd hname, hstarts]

end Octet
