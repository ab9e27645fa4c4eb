import Mathlib
import Octet.Listing.Build

/-!
# Reading a listing, entry by entry

Reading is a computation that threads the string literals and may be refused. What it returns is
obtained by inverting a successful computation bind by bind; that is done here once for operands and
once for entries, and every fact about the code of a program is read off the result.

An instruction is related to the entry that it was read from: each of its operands belongs to one
text of the entry. Literals are numbered as they are met, so a computation is described together
with the literals that it appends to those met before.

## Main definitions

* `Listing.Reader.Gives`, `Listing.Reader.Meets` — what a computation returns, and the literals that
  it meets
* `Listing.Scope.Means`, `Listing.Scope.Reads` — what an operand is, by its characters and by its
  text
* `Inst.readings`, `Inst.literals` — the operands of an instruction with their texts, and its string
  literals
* `Listing.Scope.ReadAs` — how an instruction is read from an entry

## Main results

* `Listing.Scope.means_of_plainOperand`, `Listing.Scope.meets_operand` — how an operand is read
* `Listing.Scope.meets_entry`, `Listing.Scope.meets_code` — how instructions are read
-/

namespace Octet

/-- The string literal that an operand is, with its label. -/
def Operand.literals : Operand → List (String × List UInt8)
  | .string label value => [(label, value)]
  | _ => []

namespace Inst

/-- The string literals of an instruction. -/
def literals (i : Inst) : List (String × List UInt8) := i.operands.flatMap Operand.literals

/-- The operands of an instruction, each with the text of the entry that it belongs to. -/
def readings (i : Inst) (e : Listing.Entry) : List (String × Operand) :=
  i.dest?.toList.map (e.dest, ·) ++ i.left?.toList.map (e.left, ·) ++ i.right?.toList.map
    (e.right, ·) ++ e.args.zip i.args

end Inst

namespace Listing

/-! ### Inverting computations -/

section Inversion

variable {ε α β : Type}

theorem Except.bind_eq_ok_iff {x : Except ε α} {f : α → Except ε β} {b : β} :
    (x >>= f) = .ok b ↔ ∃ a, x = .ok a ∧ f a = .ok b := by
  cases x with
  | error e => simp [bind, Except.bind]
  | ok a => simp [bind, Except.bind]

theorem Except.ok_of_mapError {φ : Type} {x : Except ε α} {f : ε → φ} {a : α}
    (h : x.mapError f = .ok a) : x = .ok a := by
  cases x with
  | error _ => simp [Except.mapError] at h
  | ok b => simpa [Except.mapError] using h

theorem Reader.bind_eq_ok_iff {x : Reader ε α} {f : α → Reader ε β} {s : Strings}
    {r : β × Strings} :
    (x >>= f) s = .ok r ↔ ∃ a t, x s = .ok (a, t) ∧ f a t = .ok r := by
  change (x s >>= fun p => f p.1 p.2) = .ok r ↔ _
  rw [Except.bind_eq_ok_iff]
  constructor
  · rintro ⟨⟨a, t⟩, hx, hf⟩
    exact ⟨a, t, hx, hf⟩
  · rintro ⟨a, t, hx, hf⟩
    exact ⟨⟨a, t⟩, hx, hf⟩

theorem Reader.pure_eq_ok_iff {a : α} {s : Strings} {r : α × Strings} :
    (pure a : Reader ε α) s = .ok r ↔ r = (a, s) := by
  change Except.ok (a, s) = .ok r ↔ _
  rw [Except.ok.injEq, eq_comm]

theorem Reader.throw_ne_ok {e : ε} {s : Strings} {r : α × Strings} :
    (throw e : Reader ε α) s ≠ .ok r := nofun

variable {P : β → Prop}

/-- What a computation returns, if it is not refused. -/
def Reader.Gives (x : Reader ε α) (P : α → Prop) : Prop := ∀ s a t, x s = .ok (a, t) → P a

theorem Reader.gives_pure {a : α} {P : α → Prop} (h : P a) :
    Reader.Gives (pure a : Reader ε α) P := by
  intro s b t hb
  obtain ⟨rfl, -⟩ := Prod.mk.inj (Reader.pure_eq_ok_iff.mp hb)
  exact h

theorem Reader.gives_throw {e : ε} {P : α → Prop} : Reader.Gives (throw e : Reader ε α) P :=
  fun _ _ _ h => absurd h Reader.throw_ne_ok

theorem Reader.Gives.bind {x : Reader ε α} {f : α → Reader ε β} {Q : α → Prop}
    (hx : Reader.Gives x Q) (hf : ∀ a, Q a → Reader.Gives (f a) P) : Reader.Gives (x >>= f) P := by
  intro s b t hb
  obtain ⟨a, u, ha, hb⟩ := Reader.bind_eq_ok_iff.mp hb
  exact hf a (hx s a u ha) u b t hb

theorem Reader.gives_ite {c : Prop} [Decidable c] {x y : Reader ε β} (h : Reader.Gives x P)
    (h' : Reader.Gives y P) : Reader.Gives (if c then x else y) P := by
  split
  · exact h
  · exact h'

theorem exists_of_forall₂_right {R : α → β → Prop} {xs : List α} {ys : List β}
    (h : List.Forall₂ R xs ys) {y : β} (hy : y ∈ ys) : ∃ x ∈ xs, R x y := by
  induction h with
  | nil => cases hy
  | cons hxy _ ih =>
    rcases List.mem_cons.mp hy with rfl | hy
    · exact ⟨_, .head _, hxy⟩
    · obtain ⟨x, hx, hxy⟩ := ih hy
      exact ⟨x, .tail _ hx, hxy⟩

theorem exists_of_forall₂_left {R : α → β → Prop} {xs : List α} {ys : List β}
    (h : List.Forall₂ R xs ys) {x : α} (hx : x ∈ xs) : ∃ y ∈ ys, R x y :=
  exists_of_forall₂_right h.flip hx

end Inversion

/-! ### String literals -/

/-- The label of a string literal, by the number of those before it. -/
def literalLabel (n : Nat) : String := "_s" ++ toString (n + 1)

/-- **What a computation returns, and the string literals that it meets**, if it is not refused.
They come after those met before, and are numbered on. -/
def Reader.Meets {ε α : Type} (x : Reader ε α) (P : α → Strings → Prop) : Prop :=
  ∀ s a t, x s = .ok (a, t) →
    ∃ new, t = s ++ new ∧ new.map (·.1) = (List.range' s.length new.length).map literalLabel ∧
      P a new

namespace Reader.Meets

variable {ε α β : Type} {x y : Reader ε α} {f : α → Reader ε β} {P P' : α → Strings → Prop}
  {R : β → Strings → Prop}

theorem pure {a : α} (h : P a []) : Meets (Pure.pure a : Reader ε α) P := by
  intro s b t hb
  obtain ⟨rfl, rfl⟩ := Prod.mk.inj (Reader.pure_eq_ok_iff.mp hb)
  exact ⟨[], by simp, by simp, h⟩

theorem thrown {e : ε} : Meets (throw e : Reader ε α) P :=
  fun _ _ _ h => absurd h Reader.throw_ne_ok

theorem bind (hx : Meets x P) (hf : ∀ a new, P a new → Meets (f a) fun b more =>
    R b (new ++ more)) :
    Meets (x >>= f) R := by
  intro s b u hb
  obtain ⟨a, t, ha, hb⟩ := Reader.bind_eq_ok_iff.mp hb
  obtain ⟨new, rfl, hnew, hP⟩ := hx s a t ha
  obtain ⟨more, rfl, hmore, hR⟩ := hf a new hP _ b u hb
  refine ⟨new ++ more, by simp, ?_, hR⟩
  rw [List.map_append, hnew, hmore, List.length_append, List.length_append, ← List.map_append,
    List.range'_append_1]

/-- What follows a refusal is not reached. -/
theorem thrown_bind {e : ε} : Meets ((throw e : Reader ε α) >>= f) R :=
  thrown.bind (P := fun _ _ => False) fun _ _ h => h.elim

theorem ite {c : Prop} [Decidable c] (h : Meets x P) (h' : Meets y P) :
    Meets (if c then x else y) P := by
  split
  · exact h
  · exact h'

theorem gives {Q : α → Prop} (hx : Meets x P) (h : ∀ a new, P a new → Q a) : Reader.Gives x Q := by
  intro s a t ha
  obtain ⟨new, -, -, hP⟩ := hx s a t ha
  exact h a new hP

theorem and {Q : α → Prop} (hx : Meets x P) (h : Reader.Gives x Q) :
    Meets x fun a new => Q a ∧ P a new := by
  intro s a t ha
  obtain ⟨new, ht, hnew, hP⟩ := hx s a t ha
  exact ⟨new, ht, hnew, h s a t ha, hP⟩

/-- A computation without literals. -/
theorem lift {c : Except ε α} (h : ∀ a, c = .ok a → P a []) : Meets (liftM c : Reader ε α) P := by
  intro s a t ha
  obtain ⟨b, hb, ha⟩ := Except.bind_eq_ok_iff.mp ha
  obtain ⟨rfl, rfl⟩ := Prod.mk.inj (Except.ok.inj ha)
  exact ⟨[], by simp, by simp, h b hb⟩

/-- Computations one after another meet the literals of all that they return. -/
theorem mapM {g : α → Reader ε β} {R : α → β → Prop} {literals : β → Strings}
    (h : ∀ a, Meets (g a) fun b new => R a b ∧ new.Perm (literals b)) (xs : List α) :
    Meets (xs.mapM g) fun ys new => List.Forall₂ R xs ys ∧ new.Perm (ys.flatMap literals) := by
  induction xs with
  | nil => exact pure ⟨.nil, by simp⟩
  | cons x xs ih =>
    rw [List.mapM_cons]
    refine (h x).bind fun y _ hy => ih.bind fun ys _ hys => pure ⟨.cons hy.1 hys.1, ?_⟩
    simpa using hy.2.append hys.2

end Reader.Meets

/-! ### Operands -/

/-- **What an operand is, by its characters**, a type after a colon apart. String literals are not
written so. -/
inductive Scope.Means (s : Scope) (explicit surroundings : Option Ty) : List Char → Operand → Prop
  | int {chars : List Char} {value : Int} (hvalue : Text.literal? chars = some value) :
    Means s explicit surroundings chars (constant (explicit.or surroundings) value)
  | deref {chars : List Char} {name : String} {p : Variable} {target t : Ty} {offset : Int}
    (hp : s.find? name = some p) (htarget : p.type = .pointer target) :
    Means s explicit surroundings ('*' :: chars) (.deref p offset t)
  | address {chars : List Char} {name : String} {offset : Int} {target : Ty} :
    Means s explicit surroundings ('&' :: chars)
      (.address (((s.find? name).map (·.label)).getD name) offset target)
  | whole {chars name : List Char} {v : Variable} (hcut : Text.cut '.' chars = (name, none))
    (hv : s.find? (String.ofList name) = some v) :
    Means s explicit surroundings chars (.var v 0 (explicit.getD v.type))
  | slice {chars name part : List Char} {v : Variable} {offset : Int}
    (hcut : Text.cut '.' chars = (name, some part))
    (hv : s.find? (String.ofList name) = some v) (hword : v.type.isWord = true)
    (hpart : (String.ofList part = "lo" ∧ offset = 0) ∨ (String.ofList part = "hi" ∧ offset = 1)) :
    Means s explicit surroundings chars (.var v offset (.byte false))

section Operands

variable {s : Scope} {explicit surroundings : Option Ty} {chars : List Char} {o : Operand}

theorem Scope.find?_of_find {name : String} {v : Variable} (h : s.find name = .ok v) :
    s.find? name = some v := by
  unfold Scope.find at h
  split at h
  · rename_i hw
    rw [hw, Except.ok.inj h]
  · simp at h

theorem Scope.means_of_derefOperand (h : s.derefOperand explicit chars = .ok o) :
    s.Means explicit surroundings ('*' :: chars) o := by
  obtain ⟨⟨name, offset⟩, -, h⟩ := Except.bind_eq_ok_iff.mp h
  obtain ⟨p, hp, h⟩ := Except.bind_eq_ok_iff.mp h
  split at h
  · rename_i htarget
    cases h
    exact .deref (s.find?_of_find hp) htarget
  · cases h

theorem Scope.means_of_addressOperand (h : s.addressOperand chars = .ok o) :
    s.Means explicit surroundings ('&' :: chars) o := by
  obtain ⟨⟨name, offset⟩, -, h⟩ := Except.bind_eq_ok_iff.mp h
  dsimp only at h
  have hmeans : ∀ target, s.Means explicit surroundings ('&' :: chars)
      (.address (((s.find? name).map (·.label)).getD name) offset target) := fun _ => .address
  split at h
  · rename_i v hv
    cases h
    simpa [hv] using hmeans v.type
  · rename_i hv
    cases h
    simpa [hv] using hmeans (.byte false)

theorem Scope.means_of_variableOperand (h : s.variableOperand explicit chars = .ok o) :
    s.Means explicit surroundings chars o := by
  unfold Scope.variableOperand at h
  cases hcut : Text.cut '.' chars with
  | mk name part =>
    rw [hcut] at h
    obtain ⟨v, hv, h⟩ := Except.bind_eq_ok_iff.mp h
    replace hv := s.find?_of_find hv
    cases part with
    | none =>
      cases h
      exact .whole hcut hv
    | some part =>
      dsimp only at h
      split at h
      · rename_i hword
        split at h
        · rename_i hpart
          cases h
          exact .slice hcut hv hword (.inl ⟨hpart, rfl⟩)
        · rename_i hpart
          cases h
          exact .slice hcut hv hword (.inr ⟨hpart, rfl⟩)
        · cases h
      · cases h

/-- **How an operand is read** that is no string literal. -/
theorem Scope.means_of_plainOperand (h : s.plainOperand surroundings chars = .ok o) :
    ∃ explicit, ((Text.cut ':' chars).2 = none → explicit = none) ∧
      s.Means explicit surroundings (Text.cut ':' chars).1 o := by
  unfold Scope.plainOperand at h
  generalize Text.cut ':' chars = c at h
  obtain ⟨base, typeName⟩ := c
  dsimp -zeta only at h
  extract_lets rest at h
  have hrest : ∀ explicit, rest explicit = .ok o → s.Means explicit surroundings base o := by
    intro explicit h
    unfold rest at h
    split at h
    · rename_i hvalue
      cases h
      exact .int hvalue
    · split at h
      · exact s.means_of_derefOperand h
      · exact s.means_of_addressOperand h
      · exact s.means_of_variableOperand h
  split at h
  · exact ⟨none, fun _ => rfl, hrest _ h⟩
  · split at h
    · exact ⟨_, by simp, hrest _ h⟩
    · cases h

/-- **What an operand is, by its text**: a string literal, or what its characters mean. -/
def Scope.Reads (s : Scope) (text : String) (o : Operand) : Prop :=
  let chars := Text.trim text.toList
  (∃ rest label value, chars = '"' :: rest ∧ o = .string label value) ∨
    (∀ rest, chars ≠ '"' :: rest) ∧ ∃ explicit surroundings,
      ((Text.cut ':' chars).2 = none → explicit = none) ∧
        s.Means explicit surroundings (Text.cut ':' chars).1 o

theorem Scope.Means.literals_eq_nil (h : s.Means explicit surroundings chars o) :
    o.literals = [] := by
  cases h <;> rfl

/-- **How an operand is read.** It is a string literal, or meets none. -/
theorem Scope.meets_operand (s : Scope) (text : String) (surroundings : Option Ty) :
    Reader.Meets (s.operand text surroundings) fun o new => s.Reads text o ∧ new = o.literals := by
  unfold Scope.operand Scope.Reads
  dsimp only
  split
  · exact .thrown
  · rename_i hchars
    split
    · exact .thrown
    · intro t o u h
      obtain ⟨rfl, rfl⟩ := Prod.mk.inj (Except.ok.inj h)
      exact ⟨_, rfl, by simp [literalLabel], .inl ⟨_, _, _, hchars, rfl⟩, rfl⟩
  · rename_i hquoted
    split
    · rename_i ho
      obtain ⟨explicit, htype, hmeans⟩ := s.means_of_plainOperand ho
      exact .pure ⟨.inr ⟨hquoted, explicit, surroundings, htype, hmeans⟩,
        hmeans.literals_eq_nil.symm⟩
    · exact .thrown

end Operands

/-! ### Entries -/

/-- **How an instruction is read from an entry**: by the operator of the entry, with one operand for
each text that the operator takes. A call is one of a declared routine with an argument for each
parameter; a jump goes to the label that the entry names. -/
structure Scope.ReadAs (s : Scope) (e : Entry) (i : Inst) : Prop where
  operator : Operator.parse? e.op = some i.operator
  placed : i.operator ≠ .label
  readings : ∀ x ∈ i.readings e, s.Reads x.1 x.2
  operands : (i.readings e).map (·.2) = i.operands
  target : ∀ a, i.target? = some a → e.target.isEmpty = false ∧ a = s.anchor e.target
  call : ∀ callee args dest, i = .call callee args dest → callee ∈ s.callees ∧
    args.length = callee.params.length

/-- The operands of an entry as they are written. -/
def Entry.texts (e : Entry) : List String := e.dest :: e.left :: e.right :: e.args

section Entries

variable {s : Scope} {e : Entry}

attribute [local simp] Inst.operator Inst.dest? Inst.left? Inst.right? Inst.args Inst.operands
  Inst.literals Inst.readings Inst.target?

theorem Scope.meets_pair (s : Scope) (left right : String) (surroundings : Option Ty) :
    Reader.Meets (s.pair left right surroundings) fun x new =>
      s.Reads left x.1 ∧ s.Reads right x.2 ∧ new.Perm (x.1.literals ++ x.2.literals) := by
  unfold Scope.pair
  refine .ite ?_ ?_
  · refine (s.meets_operand right _).bind fun r _ hr => (s.meets_operand left _).bind fun l _ hl =>
      ?_
    refine .pure ⟨hl.1, hr.1, ?_⟩
    simpa [hl.2, hr.2] using List.perm_append_comm
  · refine (s.meets_operand left _).bind fun l _ hl => (s.meets_operand right _).bind fun r _ hr =>
      ?_
    exact .pure ⟨hl.1, hr.1, by simp [hl.2, hr.2]⟩

theorem Scope.meets_arguments (s : Scope) {texts : List String} {ps : List Parameter}
    (hlength : texts.length = ps.length) :
    Reader.Meets (s.arguments texts ps) fun os new =>
      List.Forall₂ s.Reads texts os ∧ new = os.flatMap Operand.literals := by
  induction texts generalizing ps with
  | nil => exact .pure ⟨.nil, rfl⟩
  | cons text texts ih =>
    cases ps with
    | nil => cases hlength
    | cons p ps =>
      refine (s.meets_operand text _).bind fun o _ ho =>
        (ih (Nat.succ.inj hlength)).bind fun os _ hos => .pure ?_
      exact ⟨.cons ho.1 hos.1, by simp [ho.2, hos.2]⟩

theorem Scope.readAs_call {callee : Signature} {args : List Operand} {dest : Option Operand}
    (hop : Operator.parse? e.op = some .call) (hcallee : callee ∈ s.callees)
    (hargs : List.Forall₂ s.Reads e.args args)
    (harity : e.args.length = callee.params.length) (hdest : ∀ d ∈ dest, s.Reads e.dest d) :
    s.ReadAs e (.call callee args dest) where
  operator := hop
  placed := by simp
  readings := by
    rintro ⟨text, o⟩ hx
    simp only [Inst.readings, Inst.dest?, Inst.left?, Inst.right?, Inst.args, Option.toList_none,
      List.map_nil, List.append_nil, List.mem_append, List.mem_map, Option.mem_toList] at hx
    rcases hx with ⟨d, hd, hx⟩ | hx
    · obtain ⟨rfl, rfl⟩ := Prod.mk.inj hx
      exact hdest d hd
    · exact List.forall₂_zip hargs hx
  operands := by simp [List.map_snd_zip hargs.length_eq.ge, Function.comp_def]
  target := by simp
  call := by
    rintro _ _ _ ⟨⟩
    exact ⟨hcallee, hargs.length_eq.symm.trans harity⟩

theorem Scope.meets_callEntry (s : Scope) (hop : Operator.parse? e.op = some .call) :
    Reader.Meets (s.callEntry e) fun i new => s.ReadAs e i ∧ new.Perm i.literals := by
  unfold Scope.callEntry
  split
  · exact .thrown
  · rename_i callee hcallee
    have hcallee : callee ∈ s.callees := List.mem_reverse.mp (List.mem_of_find?_eq_some hcallee)
    extract_lets rest
    split
    · rename_i harity
      have harity : e.args.length = callee.params.length := by simpa using harity
      refine (s.meets_arguments harity).bind fun args _ hargs => .ite ?_ (.ite .thrown_bind ?_)
      · exact .pure ⟨readAs_call hop hcallee hargs.1 harity (by simp), by simp [hargs.2]⟩
      · refine (s.meets_operand e.dest _).bind fun d _ hd => .pure ?_
        refine ⟨readAs_call hop hcallee hargs.1 harity (by simpa using hd.1), ?_⟩
        -- the arguments are read before the destination
        simpa [hargs.2, hd.2] using List.perm_append_comm
    · exact .thrown_bind

theorem Scope.meets_target (s : Scope) (label : String) :
    Reader.Meets (s.target label) fun a new => (label.isEmpty = false ∧ a = s.anchor label) ∧
      new = [] := by
  unfold Scope.target
  split
  · exact .thrown
  · rename_i h
    exact .pure ⟨⟨by simpa using h, rfl⟩, rfl⟩

/-- **An entry is read operand by operand**, and the literals it meets are those of its
instruction. -/
theorem Scope.meets_entry (s : Scope) (e : Entry) :
    Reader.Meets (s.entry e) fun i new => s.ReadAs e i ∧ new.Perm i.literals := by
  unfold Scope.entry
  split
  · exact .thrown
  · exact .thrown
  · rename_i hop
    refine (s.meets_target e.target).bind fun a _ ha => .pure ⟨?_, by simp [ha.2]⟩
    exact ⟨hop, by simp, by simp, by simp, by simpa using ha.1, by simp⟩
  · rename_i hop
    refine .ite (.ite (.pure ⟨?_, by simp⟩) .thrown_bind) ?_
    · exact ⟨hop, by simp, by simp, by simp, by simp, by simp⟩
    · refine (s.meets_operand e.left _).bind fun l _ hl => .pure ⟨?_, by simp [hl.2]⟩
      exact ⟨hop, by simp, by simp [hl.1], by simp, by simp, by simp⟩
  · rename_i hop
    refine (s.meets_operand e.dest _).bind fun d _ hd =>
      (s.meets_target e.target).bind fun a _ ha => ?_
    refine .pure ⟨?_, by simp [hd.2, ha.2]⟩
    exact ⟨hop, by simp, by simp [hd.1], by simp, by simpa using ha.1, by simp⟩
  · rename_i hop
    split
    · exact .thrown
    · refine (s.meets_pair e.left e.right _).bind fun x _ hx =>
        (s.meets_target e.target).bind fun a _ ha => ?_
      refine .pure ⟨?_, by simpa [ha.2] using hx.2.2⟩
      exact ⟨hop, by simp, by simp [hx.1, hx.2.1], by simp, by simpa using ha.1, by simp⟩
  · rename_i hop
    exact s.meets_callEntry hop
  -- the operations of one operand
  iterate 3
    · rename_i hop
      refine (s.meets_operand e.dest _).bind fun d _ hd =>
        (s.meets_operand e.left _).bind fun l _ hl => ?_
      exact .pure ⟨⟨hop, by simp, by simp [hd.1, hl.1], by simp, by simp, by simp⟩,
        by simp [hd.2, hl.2]⟩
  · rename_i op hop
    refine (s.meets_operand e.dest _).bind fun d _ hd => ?_
    obtain ⟨hd, rfl⟩ := hd
    have hread : ∀ l r, s.Reads e.left l → s.Reads e.right r → s.ReadAs e (.binary op d l r) :=
      fun l r hl hr => ⟨hop, by simp, by simp [hd, hl, hr], by simp, by simp, by simp⟩
    split
    · refine (s.meets_operand e.left _).bind fun l _ hl =>
        (s.meets_operand e.right _).bind fun r _ hr => ?_
      exact .pure ⟨hread l r hl.1 hr.1, by simp [hl.2, hr.2]⟩
    · refine (s.meets_operand e.left _).bind fun l _ hl =>
        (s.meets_operand e.right _).bind fun r _ hr => ?_
      exact .pure ⟨hread l r hl.1 hr.1, by simp [hl.2, hr.2]⟩
    · refine (s.meets_pair e.left e.right _).bind fun x _ hx => .pure ⟨hread _ _ hx.1 hx.2.1, ?_⟩
      simpa using hx.2.2.append_left d.literals

/-- An entry that has a label places it; any other entry is an instruction. -/
def Scope.PlacedOrRead (s : Scope) (e : Entry) (i : Inst) : Prop :=
  if e.label.isEmpty then s.ReadAs e i else i = .label (s.anchor e.label)

/-- **The code of a function is read entry by entry.** -/
theorem Scope.meets_code (s : Scope) (es : List Entry) (n : Nat) (defined : List String) :
    Reader.Meets (s.code n defined es) fun is new =>
      List.Forall₂ s.PlacedOrRead es is ∧ new.Perm (is.flatMap Inst.literals) := by
  induction es generalizing n defined with
  | nil => exact .pure ⟨.nil, by simp⟩
  | cons e es ih =>
    unfold Scope.code
    split
    · rename_i hlabel
      refine Reader.Meets.bind (P := fun i new => s.ReadAs e i ∧ new.Perm i.literals) ?_
        fun i _ hi => ?_
      · exact fun t i u hi => s.meets_entry e t i u (Except.ok_of_mapError hi)
      · refine (ih _ _).bind fun is _ his => .pure ⟨.cons ?_ his.1, ?_⟩
        · simpa [Scope.PlacedOrRead, hlabel] using hi.1
        · simpa using hi.2.append his.2
    · rename_i hlabel
      refine .ite .thrown_bind ((ih _ _).bind fun is _ his => .pure ⟨.cons ?_ his.1, ?_⟩)
      · simp [Scope.PlacedOrRead, hlabel]
      · simpa using his.2

end Entries

end Listing

end Octet
