import Octet.Proofs.Listing

/-!
# Programs that were read are well formed

Later stages take a program as it was read, and check none of it again: that a jump has one place to
go to, that variables are declared, that constants fit, that calls have their arguments. All of it
is checked or arranged while a listing is read, in different places, and is gathered here.

Most of that can be seen in the program alone. Whether a variable was written as the low byte of
another one cannot: the low byte of a word and an aggregate that is written with the type of a byte
are the same operand. So what holds of the bytes of variables is said of the texts that they were
read from.

## Main definitions

* `Operand.WellTyped` — what the type of an operand says about it
* `Program.WellFormed` — programs that later stages can work with
* `Listing.slice?` — texts that name a byte of a variable

## Main results

* `Listing.wellFormed_of_build` — programs that were read are well formed
-/

namespace Octet

/-- **What the type of an operand says about it.** Constants are bytes or words and fit; memory is
reached through pointers; a part of a variable that is not its beginning is the high byte of a
word. -/
def Operand.WellTyped : Operand → Prop
  | .int t value => (t.byteCount = 1 ∨ t.byteCount = 2) ∧ 0 ≤ value ∧ value ≤ t.mask
  | .var v offset t => offset = 0 ∨ (offset = 1 ∧ t = .byte false ∧ v.type.isWord = true)
  | .deref p _ _ => p.type.isPointer = true
  | _ => True

/-- **Programs that later stages can work with.** -/
structure Program.WellFormed (p : Program) : Prop where
  /-- A jump goes to an anchor that one label of the function places, at the address of that
  label. -/
  targets : ∀ f ∈ p.functions, ∀ i ∈ f.code, i.operator.isJump = true →
    ∃ a n, i.target? = some a ∧ (∀ k, f.code[k]? = some (.label a) ↔ k = n) ∧ f.addressOf a = n + 1
  /-- Variables are those of the function or global. -/
  declared : ∀ f ∈ p.functions, ∀ i ∈ f.code, ∀ v, i.Mentions v → v ∈ f.vars ∨ v ∈ p.globals
  typed : ∀ f ∈ p.functions, ∀ i ∈ f.code, ∀ o ∈ i.operands, o.WellTyped
  /-- A call is one of a routine of the program, with an argument for each parameter. -/
  calls : ∀ f ∈ p.functions, ∀ callee args dest, .call callee args dest ∈ f.code →
    args.length = callee.params.length ∧
      (callee ∈ p.externs ∨ ∃ g ∈ p.functions, callee = g.signature)
  /-- Each string literal of the program stands in the code once, under a label of its own. -/
  literals : (p.functions.flatMap fun f => f.code.flatMap Inst.literals).Perm p.strings
  labels : (p.strings.map (·.1)).Nodup

/-! ### Targets -/

theorem Inst.exists_target_of_isJump {i : Inst} (h : i.operator.isJump = true) :
    ∃ a, i.target? = some a := by
  cases i with
  | jump a | compare _ _ _ a | decJump _ a => exact ⟨a, rfl⟩
  | _ => cases h

namespace Function

variable {f : Function} {a : Anchor} {n : Nat}

theorem getElem?_eq_label_iff (h : (f.code.filterMap Inst.placed?).Nodup)
    (hn : f.code[n]? = some (.label a)) (k : Nat) : f.code[k]? = some (.label a) ↔ k = n := by
  refine ⟨fun hk => ?_, fun hk => hk ▸ hn⟩
  obtain ⟨hnl, hn⟩ := List.getElem?_eq_some_iff.mp hn
  obtain ⟨hkl, hk⟩ := List.getElem?_eq_some_iff.mp hk
  have hapart := List.pairwise_iff_getElem.mp (List.pairwise_filterMap.mp h)
  rcases Nat.lt_trichotomy k n with hlt | heq | hlt
  · exact absurd rfl (hapart k n hkl hnl hlt a (by rw [hk]; rfl) a (by rw [hn]; rfl))
  · exact heq
  · exact absurd rfl (hapart n k hnl hkl hlt a (by rw [hn]; rfl) a (by rw [hk]; rfl))

theorem addressOf_eq (h : ∀ k, f.code[k]? = some (.label a) ↔ k = n) : f.addressOf a = n + 1 := by
  obtain ⟨hnl, hn⟩ := List.getElem?_eq_some_iff.mp ((h n).mpr rfl)
  have hfind : f.code.findIdx? (· == .label a) = some n := by
    refine List.findIdx?_eq_some_iff_getElem.mpr ⟨hnl, by simp [hn], fun k hk hkn => ?_⟩
    have hkl : k < f.code.length := hk.trans hnl
    exact hk.ne ((h k).mp (List.getElem?_eq_some_iff.mpr ⟨hkl, by simpa using hkn⟩))
  simp [addressOf, hfind]

end Function

namespace Listing

/-! ### Types of operands -/

/-- The variable and the part of it that a text names with a dot. -/
def slice? (text : String) : Option (List Char × List Char) :=
  match Text.trim text.toList with
  | '"' :: _ => none
  | chars =>
    let base := (Text.cut ':' chars).1
    if (Text.literal? base).isSome then none
    else match base with
      | '*' :: _ => none
      | '&' :: _ => none
      | _ =>
        match Text.cut '.' base with
        | (name, some part) => some (name, part)
        | (_, none) => none

/-- The operand is the low or the high byte of a word variable, as its part says. -/
def IsSlice (o : Operand) (name part : List Char) : Prop :=
  ∃ v offset, o = .var v offset (.byte false) ∧ v.name = String.ofList name ∧ v.type.isWord = true ∧
    ((String.ofList part = "lo" ∧ offset = 0) ∨ (String.ofList part = "hi" ∧ offset = 1))

section

variable {s : Scope} {o : Operand} {explicit surroundings : Option Ty} {chars : List Char}

theorem byteCount_constantType (given : Option Ty) (value : Int) :
    (constantType given value).byteCount = 1 ∨ (constantType given value).byteCount = 2 := by
  unfold constantType
  split
  · exact .inl rfl
  · exact .inr rfl
  · exact .inr rfl
  · split
    · exact .inr rfl
    · exact .inl rfl

theorem wellTyped_constant (given : Option Ty) (value : Int) :
    (constant given value).WellTyped := by
  refine ⟨byteCount_constantType given value, ?_⟩
  have hpos : 0 < Bits.modulus (constantType given value).maskBits := by
    simp [Bits.modulus, Nat.one_shiftLeft]
  have hlow := Int.emod_nonneg value (Int.natCast_ne_zero.mpr hpos.ne')
  have hhigh := Int.emod_lt_of_pos value (Int.natCast_pos.mpr hpos)
  simp only [Bits.low, Ty.mask]
  omega

theorem Scope.Means.wellTyped (h : s.Means explicit surroundings chars o) : o.WellTyped := by
  cases h with
  | int => exact wellTyped_constant _ _
  | deref _ htarget => simp [Operand.WellTyped, htarget, Ty.isPointer]
  | address => trivial
  | whole => exact .inl rfl
  | slice _ _ hword hpart =>
    rcases hpart with ⟨-, rfl⟩ | ⟨-, rfl⟩
    · exact .inl rfl
    · exact .inr ⟨rfl, rfl, hword⟩

theorem Scope.Reads.wellTyped {text : String} (h : s.Reads text o) : o.WellTyped := by
  obtain ⟨_, _, _, -, rfl⟩ | ⟨-, _, _, -, hmeans⟩ := h
  · trivial
  · exact hmeans.wellTyped

theorem Scope.name_of_find? {name : String} {v : Variable} (h : s.find? name = some v) :
    v.name = name := by
  unfold Scope.find? at h
  rcases Option.or_eq_some_iff.mp h with h | ⟨-, h⟩
  · simpa using List.find?_some h
  · simpa using List.find?_some h

theorem Scope.Means.find?_name {v : Variable} (h : s.Means explicit surroundings chars o)
    (hv : o.mentioned? = some v) :
    s.find? v.name = some v := by
  cases h with
  | int | address => cases hv
  | deref hw | whole _ hw | slice _ hw =>
    cases hv
    rwa [s.name_of_find? hw]

/-- The variable of an operand is the one that its name means. -/
theorem Scope.Reads.find?_name {text : String} {v : Variable} (h : s.Reads text o)
    (hv : o.mentioned? = some v) :
    s.find? v.name = some v := by
  obtain ⟨_, _, _, -, rfl⟩ | ⟨-, _, _, -, hmeans⟩ := h
  · cases hv
  · exact hmeans.find?_name hv

/-- **A byte of a variable is one of a word.** -/
theorem Scope.Reads.isSlice {text : String} (h : s.Reads text o) {name part : List Char}
    (hslice : slice? text = some (name, part)) : IsSlice o name part := by
  unfold slice? at hslice
  obtain ⟨rest, _, _, hchars, -⟩ | ⟨hquoted, _, _, -, hmeans⟩ := h
  · rw [hchars] at hslice
    cases hslice
  · generalize Text.trim text.toList = chars at hquoted hmeans hslice
    split at hslice
    · cases hslice
    dsimp only at hslice
    generalize (Text.cut ':' chars).1 = base at hmeans hslice
    split at hslice
    · cases hslice
    rename_i hliteral
    cases hmeans with
    | int hvalue => simp [hvalue] at hliteral
    | deref => cases hslice
    | address => cases hslice
    | whole hcut =>
      rw [hcut] at hslice
      split at hslice <;> cases hslice
    | slice hcut hv hword hpart =>
      rw [hcut] at hslice
      split at hslice
      · cases hslice
      · cases hslice
      · obtain ⟨rfl, rfl⟩ := Prod.mk.inj (Option.some.inj hslice)
        exact ⟨_, _, rfl, s.name_of_find? hv, hword, hpart⟩

end

/-! ### Programs -/

section

variable {s : Scope} {e : Entry} {i : Inst}

theorem Scope.PlacedOrRead.call (h : s.PlacedOrRead e i) {callee : Signature} {args : List Operand}
    {dest : Option Operand} (hi : i = .call callee args dest) :
    callee ∈ s.callees ∧ args.length = callee.params.length := by
  unfold Scope.PlacedOrRead at h
  split at h
  · exact h.call callee args dest hi
  · rw [h] at hi
    cases hi

end

theorem literalLabel_injective : literalLabel.Injective := by
  intro m n h
  have hrepr : toString (m + 1) = toString (n + 1) := by
    rw [← String.toList_inj] at h ⊢
    simpa [literalLabel, String.toList_append] using h
  exact Nat.succ.inj (Nat.repr_inj.mp hrepr)

variable {l : Listing} {p : Program}

theorem targets_of_build (h : l.build = .ok p) {f : Function} (hf : f ∈ p.functions) {i : Inst}
    (hi : i ∈ f.code) (hjump : i.operator.isJump = true) :
    ∃ a n, i.target? = some a ∧ (∀ k, f.code[k]? = some (.label a) ↔ k = n) ∧
      f.addressOf a = n + 1 := by
  obtain ⟨a, ha⟩ := Inst.exists_target_of_isJump hjump
  obtain ⟨n, hn⟩ := List.mem_iff_getElem?.mp (jumpsPlaced_of_build h hf i hi a ha)
  have honly := Function.getElem?_eq_label_iff (labels_nodup_of_build h hf) hn
  exact ⟨a, n, ha, honly, Function.addressOf_eq honly⟩

theorem calls_of_build (h : l.build = .ok p) {f : Function} (hf : f ∈ p.functions)
    {callee : Signature}
    {args : List Operand} {dest : Option Operand} (hi : .call callee args dest ∈ f.code) :
    args.length = callee.params.length ∧
      (callee ∈ p.externs ∨ ∃ g ∈ p.functions, callee = g.signature) := by
  obtain ⟨r, -, σ, -, hr⟩ := function_of_build h hf
  obtain ⟨e, -, hei⟩ := exists_of_forall₂_right hr.code hi
  obtain ⟨hcallee, harity⟩ := hei.call rfl
  refine ⟨harity, (List.mem_append.mp hcallee).imp_right fun hcallee => ?_⟩
  obtain ⟨g, hg, rfl⟩ := List.mem_map.mp hcallee
  exact ⟨g, hg, rfl⟩

theorem wellTyped_of_build (h : l.build = .ok p) {f : Function} (hf : f ∈ p.functions) {i : Inst}
    (hi : i ∈ f.code) {o : Operand} (ho : o ∈ i.operands) : o.WellTyped := by
  obtain ⟨r, -, σ, -, hr⟩ := function_of_build h hf
  obtain ⟨e, -, hei⟩ := exists_of_forall₂_right hr.code hi
  obtain ⟨text, -, hreads⟩ := hei.reads ho
  exact hreads.wellTyped

/-- **Programs that were read are well formed**, and each text that names a byte of a variable was
read as the low or high byte of a word. -/
theorem wellFormed_of_build (h : l.build = .ok p) :
    p.WellFormed ∧
      List.Forall₂ (fun r f => List.Forall₂ (fun e i => ∀ text o, (text, o) ∈ i.readings e →
      ∀ name part, slice? text = some (name, part) →
        IsSlice o name part) r.code f.code) l.functions p.functions := by
  obtain ⟨hbodies, hliterals, hnumbered⟩ := bodies_of_build h
  refine ⟨⟨fun f hf i hi => targets_of_build h hf hi, fun f hf i hi v => declared_of_build h hf hi,
    fun f hf i hi o => wellTyped_of_build h hf hi, fun f hf _ _ _ => calls_of_build h hf,
      hliterals.symm, ?_⟩, ?_⟩
  · rw [hnumbered]
    exact List.nodup_range.map literalLabel_injective
  · refine hbodies.imp fun r f hr => ?_
    obtain ⟨σ, -, hr⟩ := hr
    refine hr.code.imp fun e i hei => ?_
    intro text o ho name part hslice
    exact (hei.readings ho).isSlice hslice

end Listing

namespace WellFormed

/-- A function that prints a text as often as the high byte of a word says. -/
def repeatListing : Listing where
  globals := [⟨"g", "word"⟩]
  externs := [{ name := "print", params := [⟨"s", "ptr"⟩] }]
  functions :=
    [{  name := "f"
        result := "byte"
        vars := [⟨"n", "byte"⟩]
        code :=
          [ { op := "load", dest := "n", left := "g.hi" },
            { label := "top" },
            { op := "call", callee := "print", args := ["\"A\""] },
            { op := "decjump", dest := "n", target := "top" },
            { op := "return", left := "7" } ] }]

/-- The global word. -/
def word : Variable := ⟨0, true, "g", "g", .word false, none⟩

/-- The counter. -/
def counter : Variable := ⟨0, false, "n", "f_n", .byte false, none⟩

/-- The external routine. -/
def print : Signature := ⟨"print", [⟨0, "s", .pointer (.byte false), "print_s"⟩], .void⟩

/-- The program of `repeatListing`. -/
def repeated : Program where
  globals := [word]
  strings := [("_s1", [65])]
  externs := [print]
  functions :=
    [{  name := "f"
        params := []
        result := .byte false
        vars := [counter]
        code :=
          [ .load (.whole counter) (.var word 1 (.byte false)),
            .label ⟨"f_top"⟩,
            .call print [.string "_s1" [65]] none,
            .decJump (.whole counter) ⟨"f_top"⟩,
            .ret (some (.int (.byte false) 7)) ]
        ranges := [⟨[1, 4], none⟩] }]

/-- It has a jump, a call, a literal, a constant and the high byte of a word. -/
theorem wellFormed_repeated :
    repeatListing.build = .ok repeated ∧ repeated.WellFormed ∧
      Listing.slice? "g.hi" = some (['g'], ['h', 'i']) := by
  have h : repeatListing.build = .ok repeated := by cbv
  exact ⟨h, (Listing.wellFormed_of_build h).1, by cbv⟩

end WellFormed

end Octet
