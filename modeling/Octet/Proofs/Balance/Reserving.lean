import Octet.Proofs.Balance.Building

/-!
# Reservations are balanced

Taking an occupied register saves it, on the stack or in memory, and the code that restores it takes
from the stack what was pushed. A reservation that is open has therefore raised the level by its
height, and releasing it lowers the level again. A branch out of the instruction restores what all
open reservations have saved and arrives at the level at which the function was entered, whether or
not it goes around the restores when it is not taken.

## Main results

* `Arch.evens_saveCode` — what save code pushes is popped by its restores
* `Build.balanced_reserveSparing`, `Build.balanced_release` — taking a register and giving it back
* `Build.neutral_settleAll`, `Build.neutral_locate` — moving pointers back
* `Build.neutral_branch`, `Build.neutral_jump` — leaving the instruction
-/

namespace Octet

open Assembly

/-! ### Save code -/

/-- What save code pushes is popped by its restores. -/
def SaveCode.Evens (c : SaveCode) : Prop :=
  ∃ n : Int, Level.base.through? c.save = some ⟨n, false⟩ ∧
    Level.through? ⟨n, false⟩ c.restore = some .base

namespace SaveCode

theorem evens_none (n : Nat) : (none n).Evens := ⟨0, rfl, rfl⟩

theorem Evens.andThen {s t : SaveCode} (hs : s.Evens) (ht : t.Evens) : (s.andThen t).Evens := by
  obtain ⟨m, hsave, hrestore⟩ := hs
  obtain ⟨n, hsave', hrestore'⟩ := ht
  have hraised : ∀ k : Int, Level.mk k false = Level.base.grow k := by
    intro k
    simp [Level.base, Level.grow]
  have hsum : Level.mk (m + n) false = (Level.mk n false).grow m := by
    simp [Level.grow, Int.add_comm]
  refine ⟨m + n, ?_, ?_⟩
  · rw [SaveCode.andThen, Level.through?_append, hsave, Option.bind_some, hraised,
      Level.through?_grow, hsave', Option.map_some, hsum]
  · rw [SaveCode.andThen, Level.through?_append, hsum, Level.through?_grow, hrestore',
      Option.map_some, Option.bind_some, ← hraised, hrestore]

end SaveCode

namespace Mos

theorem through?_copyThroughA (dest source : String) (width : Int) :
    Level.base.through? (copyThroughA dest source width) = some .base := by
  have hplain : ∀ i ∈ (List.range width.toNat).flatMap (fun i : Nat =>
      [(⟨"lda", [.mem source i]⟩ : Instr), ⟨"sta", [.mem dest i]⟩]), i.op ∉ specialOps := by
    intro i hi
    obtain ⟨j, -, hj⟩ := List.mem_flatMap.mp hi
    rcases List.mem_pair.mp hj with rfl | rfl
    · exact (by decide : "lda" ∉ specialOps)
    · exact (by decide : "sta" ∉ specialOps)
  have hpush : Level.base.after? ⟨"pha", []⟩ = some ⟨1, false⟩ := rfl
  rw [copyThroughA, List.cons_append, Level.through?_cons, hpush, Option.bind_some,
    Level.through?_append, Level.through?_of_plain hplain]
  rfl

theorem evens_saveUnit {n : Nat} {u : Register} {c : SaveCode} (h : saveUnit n u = .ok c) :
    c.Evens := by
  unfold saveUnit at h
  dsimp only at h
  split at h
  · cases h
    exact ⟨1, rfl, rfl⟩
  split at h
  · cases h
    have hplain : ∀ start args, specialOps.all (fun op => !start.toList.isPrefixOf op.toList) =
      true → Level.base.through? [⟨start ++ u.name, args⟩] = some .base := by
      intro start args hstart
      exact Level.through?_of_plain (by simpa using plain_append hstart u.name) _
    exact ⟨0, hplain "st" _ (by decide), hplain "ld" _ (by decide)⟩
  split at h
  · cases h
    exact ⟨0, through?_copyThroughA .., through?_copyThroughA ..⟩
  · cases h

theorem evens_saveWideUnit {n : Nat} {u : Register} {c : SaveCode} (h : saveWideUnit n u = .ok c) :
    c.Evens := by
  unfold saveWideUnit at h
  dsimp only at h
  split at h
  · rename_i hu
    cases h
    simp only [Bool.or_eq_true, beq_iff_eq] at hu
    rcases hu with (rfl | rfl) | rfl
    · exact ⟨1, rfl, rfl⟩
    · exact ⟨1, rfl, rfl⟩
    · exact ⟨1, rfl, rfl⟩
  split at h
  · split at h
    · cases h
      exact ⟨0, rfl, rfl⟩
    · cases h
      exact ⟨0, through?_copyThroughA .., through?_copyThroughA ..⟩
  · cases h

theorem evens_saveUnits {one : Nat → Register → Except Fault SaveCode}
    (hone : ∀ n u c, one n u = .ok c → c.Evens) {n : Nat} {us : List Register} {c : SaveCode}
    (h : saveUnits one n us = .ok c) : c.Evens := by
  induction us generalizing n c with
  | nil =>
    cases h
    exact SaveCode.evens_none n
  | cons u us ih =>
    obtain ⟨s, hu, h⟩ := Listing.Except.bind_eq_ok_iff.mp h
    obtain ⟨t, hus, h⟩ := Listing.Except.bind_eq_ok_iff.mp h
    cases h
    exact (hone n u s hu).andThen (ih hus)

theorem harmless_saveUnits {one : Nat → Register → Except Fault SaveCode}
    (hone : ∀ n u, Harmless (one n u))
    (n : Nat) (us : List Register) : Harmless (saveUnits one n us) := by
  induction us generalizing n with
  | nil => exact harmless_ok _
  | cons u us ih => exact (hone n u).bind fun s => (ih s.next).bind fun _ => harmless_ok _

theorem harmless_saveUnit (n : Nat) (u : Register) : Harmless (saveUnit n u) := by
  unfold saveUnit
  dsimp only
  split
  · exact harmless_ok _
  split
  · exact harmless_ok _
  split
  · exact harmless_ok _
  · exact harmless_error rfl

theorem harmless_saveWideUnit (n : Nat) (u : Register) : Harmless (saveWideUnit n u) := by
  unfold saveWideUnit
  dsimp only
  split
  · exact harmless_ok _
  split
  · split
    · exact harmless_ok _
    · exact harmless_ok _
  · exact harmless_error rfl

end Mos

namespace Intel

theorem evens_saveAlone (n : Nat) (u : Register) : (saveAlone n u).Evens := ⟨0, rfl, rfl⟩

theorem evens_push (arg : Arg) (n : Nat) :
    SaveCode.Evens ⟨[⟨"push", [arg]⟩], [⟨"pop", [arg]⟩], n⟩ :=
  ⟨2, rfl, rfl⟩

theorem evens_saveUnits {n : Nat} {done us : List Register} {c : SaveCode}
    (h : saveUnits n done us = .ok c) :
    c.Evens := by
  induction us generalizing n done c with
  | nil =>
    cases h
    exact SaveCode.evens_none n
  | cons u us ih =>
    unfold saveUnits at h
    split at h
    · exact ih h
    split at h
    · obtain ⟨rest, hrest, h⟩ := Listing.Except.bind_eq_ok_iff.mp h
      cases h
      exact (evens_push psw n).andThen (ih hrest)
    split at h
    · obtain ⟨arg, -, h⟩ := Listing.Except.bind_eq_ok_iff.mp h
      obtain ⟨rest, hrest, h⟩ := Listing.Except.bind_eq_ok_iff.mp h
      cases h
      exact (evens_push arg n).andThen (ih hrest)
    · obtain ⟨rest, hrest, h⟩ := Listing.Except.bind_eq_ok_iff.mp h
      cases h
      exact (evens_saveAlone n u).andThen (ih hrest)

theorem harmless_pairArg (r : Register) : Harmless (pairArg r) := by
  unfold pairArg
  split
  · exact harmless_ok _
  · exact harmless_error rfl

theorem harmless_saveUnits (n : Nat) (done us : List Register) :
    Harmless (saveUnits n done us) := by
  induction us generalizing n done with
  | nil => exact harmless_ok _
  | cons u us ih =>
    unfold saveUnits
    split
    · exact ih _ _
    split
    · exact (ih _ _).bind fun _ => harmless_ok _
    split
    · exact (harmless_pairArg _).bind fun _ => (ih _ _).bind fun _ => harmless_ok _
    · exact (ih _ _).bind fun _ => harmless_ok _

end Intel

/-- **What save code pushes is popped by its restores.** -/
theorem Arch.evens_saveCode {m : Arch} {n : Nat} {us : List Register} {c : SaveCode}
    (h : m.saveCode n us = .ok c) : c.Evens := by
  cases m with
  | mos6502 => exact Mos.evens_saveUnits (fun _ _ _ => Mos.evens_saveUnit) h
  | wdc65816 => exact Mos.evens_saveUnits (fun _ _ _ => Mos.evens_saveWideUnit) h
  | i8080 => exact Intel.evens_saveUnits h

theorem Arch.harmless_saveCode (m : Arch) (n : Nat) (us : List Register) :
    Harmless (m.saveCode n us) := by
  cases m with
  | mos6502 => exact Mos.harmless_saveUnits Mos.harmless_saveUnit n us
  | wdc65816 => exact Mos.harmless_saveUnits Mos.harmless_saveWideUnit n _
  | i8080 => exact Intel.harmless_saveUnits n [] us

/-! ### Code that moves pointers -/

theorem Intel.through?_adjustCode {p : Register} {delta : Int} {code : List Instr}
    (h : Intel.adjustCode p delta = .ok code) : Level.base.through? code = some .base := by
  unfold Intel.adjustCode at h
  dsimp only at h
  split at h
  · cases h
    rfl
  split at h
  · obtain ⟨arg, -, h⟩ := Listing.Except.bind_eq_ok_iff.mp h
    cases h
    refine Level.through?_of_plain (fun i hi => ?_) _
    rw [List.eq_of_mem_replicate hi]
    split
    · exact (by decide : "dcx" ∉ specialOps)
    · exact (by decide : "inx" ∉ specialOps)
  · cases h
    rfl

theorem Intel.harmless_adjustCode (p : Register) (delta : Int) :
    Harmless (Intel.adjustCode p delta) := by
  unfold Intel.adjustCode
  dsimp only
  split
  · exact harmless_ok _
  split
  · exact (Intel.harmless_pairArg p).bind fun _ => harmless_ok _
  · exact harmless_ok _

/-- Moving a pointer pops what it pushes. -/
theorem Arch.through?_adjustCode {m : Arch} {p : Register} {delta : Int} {code : List Instr}
    (h : m.adjustCode p delta = .ok code) : Level.base.through? code = some .base := by
  cases m with
  | i8080 => exact Intel.through?_adjustCode h
  | mos6502 | wdc65816 =>
    cases h
    rfl

theorem Arch.harmless_adjustCode (m : Arch) (p : Register) (delta : Int) :
    Harmless (m.adjustCode p delta) := by
  cases m with
  | i8080 => exact Intel.harmless_adjustCode p delta
  | mos6502 | wdc65816 => exact harmless_ok _

namespace Build

variable {α β : Type} {s : Site} {k : Stage} {R : List Reservation} {P : List (String × Level)}

/-! ### Taking registers and giving them back -/

/-- Opening a reservation, once what it saves was pushed. -/
theorem balanced_hold (r : Option Register) {restore : Option (List Instr)}
    (h : RestoreSound restore) :
    Balanced s ⟨R, (Level.of R).grow (restoreHeight restore), P⟩ (hold r restore) fun res =>
      .of (res :: R) P := by
  intro w hw hs
  have hlevel : (Level.of R).grow (restoreHeight restore) = .of
      (⟨w.draft.tickets, r, restore⟩ :: R) := by
    rw [Level.of_cons]
    rfl
  refine ⟨congrArg _ hw, ?_, Nat.le_refl _, [], (List.append_nil _).symm, .nil rfl, fun _ => .base,
    fun Γ hΓ => ⟨hlevel, hΓ.awaited⟩⟩
  rintro res hres
  rcases List.mem_cons.mp hres with rfl | hres
  · exact h
  · exact hs res hres

theorem balanced_pin {r : Option Register} : Balanced s (.of R P) (pin r) fun res =>
    .of (res :: R) P := by
  have hlevel : (Level.of R).grow (restoreHeight none) = .of R := Level.grow_zero _
  have hhold := balanced_hold (s := s) (R := R) (P := P) r restoreSound_none
  rwa [hlevel] at hhold

/-- **Saving units** pushes what the code that restores them will pop. -/
theorem Balanced.save {units : List Register} {f : List Instr → Build β} {Q : β → Stage}
    (h : ∀ code, RestoreSound (some code) →
      Balanced s ⟨R, (Level.of R).grow (restoreHeight (some code)), P⟩ (f code) Q) :
    Balanced s (.of R P) (save units >>= f) Q := by
  unfold Build.save
  simp only [bind_assoc, pure_bind]
  refine .draft fun d _ => .arch ?_
  cases hcode : s.target.arch.saveCode d.saves units with
  | error e => exact fun _ _ _ => Arch.harmless_saveCode _ _ _ e hcode
  | ok code =>
    refine .reads (fun _ => rfl) ?_
    have hcells : Plain s ((List.range (code.next - d.saves)).forM fun _ => discard saveCell) :=
      .forM fun _ _ k => .map (plain_saveCell k)
    refine (hcells _).bind fun _ => ?_
    obtain ⟨n, hsave, hrestore⟩ := Arch.evens_saveCode hcode
    obtain ⟨hsound, hheight⟩ := restoreSound_of_through hrestore
    refine (balanced_emitAll (l := (Level.of R).grow n) ?_).bind fun _ => ?_
    · have hgrow : (Stage.of R P).level = Level.base.grow (Level.of R).depth := by
        simp [Stage.of, Level.of, Level.base, Level.grow]
      rw [hgrow, Level.through?_grow, hsave]
      simp [Level.grow, Level.of, Int.add_comm]
    · have hrest := h code.restore hsound
      rwa [hheight] at hrest

/-- **Taking a register.** -/
theorem balanced_reserveSparing (r : Register) (spare : Option Variable) :
    Balanced s (.of R P) (reserveSparing r spare) fun res => .of (res :: R) P := by
  refine .read (.draft fun d _ => ?_)
  dsimp only
  split
  · exact balanced_pin
  · exact .save fun code hcode => balanced_hold (some r) hcode

theorem balanced_reserve {r : Register} : Balanced s (.of R P) (reserve r) fun res =>
    .of (res :: R) P :=
  balanced_reserveSparing r none

theorem balanced_reserveFor {r : Register} {l : Location} :
    Balanced s (.of R P) (reserveFor r l) fun res => .of (res :: R) P :=
  .read (balanced_reserveSparing r _)

theorem balanced_reserveAny (candidates : List Register) (avoid : List Location) :
    Balanced s (.of R P) (reserveAny candidates avoid) fun x => .of (x.2 :: R) P := by
  refine .read (.draft fun d _ => ?_)
  dsimp only
  split
  · exact balanced_reserve.bind fun res => .pure _ rfl
  · exact .throw rfl

/-- **Giving a register back.** The reservation that was opened last is on top. -/
theorem balanced_release {res : Reservation} : Balanced s (.of (res :: R) P) (release res) fun _ =>
    .of R P := by
  refine .of_sound fun hs => .draft fun d hd => ?_
  have hd : d.reserved = res :: R := hd
  have hsound : res.Sound := hs res (.head _)
  rw [hd]
  dsimp only
  rw [if_pos (beq_self_eq_true _)]
  refine Balanced.bind (Q := fun _ => ⟨R, .of (res :: R), P⟩) ?_ fun _ =>
    balanced_emitAll (hsound.through R)
  exact fun w _ hs => ⟨rfl, fun r hr => hs r (.tail _ hr), Nat.le_refl _, [],
    (List.append_nil _).symm, .nil rfl, fun _ => .base, fun _ hΓ => ⟨rfl, hΓ.awaited⟩⟩

theorem balanced_pinAt {l : Location} : Balanced s (.of R P) (pinAt l) fun o =>
    .of (o.toList ++ R) P := by
  unfold pinAt
  split
  · exact balanced_pin.bind fun res => .pure _ rfl
  · exact .pure _ rfl

theorem balanced_unpin {o : Option Reservation} :
    Balanced s (.of (o.toList ++ R) P) (unpin o) fun _ => .of R P := by
  cases o with
  | none => exact .pure _ rfl
  | some res => exact balanced_release

/-- Releasing reservations, the last one first. -/
theorem balanced_releaseAll {held : List Reservation} :
    Balanced s (.of (held ++ R) P) (held.forM release) fun _ => .of R P := by
  induction held with
  | nil => exact .pure _ rfl
  | cons res held ih => exact balanced_release.bind fun _ => ih

/-- Restoring everything, without releasing it, leads back to the level at which the function was
entered. -/
theorem balanced_restoreAll : Balanced s (.of R P) restoreAll fun _ => ⟨R, .base, P⟩ := by
  refine .of_sound fun hs => .draft fun d hd => balanced_emitAll ?_
  have hrestores : d.restores = R.flatMap fun res => res.restore.getD [] := congrArg _ hd
  rw [hrestores]
  exact Level.through?_restores hs

/-! ### Displaced pointers -/

theorem neutral_adjust (p : Register) (delta : Int) : Neutral s (adjust p delta) := by
  intro R P
  refine .draft fun d _ => .arch ?_
  cases hcode : s.target.arch.adjustCode p delta with
  | error e => exact fun _ _ _ => Arch.harmless_adjustCode _ _ _ e hcode
  | ok code =>
    refine .reads (fun _ => rfl)
      ((neutral_emitAll (Arch.through?_adjustCode hcode) R P).bind fun _ => ?_)
    exact balanced_modifyDraft (fun _ => rfl) fun _ => rfl

theorem neutral_moveBack (p : Register) (delta : Int) : Neutral s (moveBack p delta) :=
  (neutral_adjust p (-delta)).bind fun _ _ _ => balanced_modifyDraft (fun _ => rfl) fun _ => rfl

theorem neutral_settle (r : Register) : Neutral s (settle r) := by
  refine fun R P => .draft fun d _ => Neutral.forM (fun x _ => ?_) R P
  exact .ite (neutral_moveBack _ _) (.pure ())

theorem neutral_settleAll : Neutral s settleAll := by
  refine fun R P => .read (.draft fun d _ => Neutral.forM (fun x _ => ?_) R P)
  exact .ite (neutral_moveBack _ _) (.pure ())

theorem neutral_locate (o : Operand) : Neutral s (locate o) := by
  refine fun R P => .read ?_
  dsimp only
  split
  · exact (neutral_settle _ R P).bind fun _ => .pure _ rfl
  · exact .pure _ rfl

/-- Going on with where an operand is. -/
theorem Neutral.locate {β : Type} {o : Operand} {f : Location → Build β}
    (h : Neutral s (f (o.located s.registers))) :
    Neutral s (Build.locate o >>= f) := by
  intro R P
  unfold Build.locate
  rw [bind_assoc]
  refine .read ?_
  dsimp only
  split
  · rw [bind_assoc]
    exact (neutral_settle _ R P).bind fun _ => by rw [pure_bind]; exact h R P
  · rw [pure_bind]
    exact h R P

/-! ### Leaving the instruction -/

/-- Jumping to an anchor, after everything was restored. Nothing is asked of the level after the
jump. -/
theorem balanced_emitJump {target : String} (ht : s.Names target) (l : Level) :
    Balanced s ⟨R, .base, P⟩ (emit s.target.arch.branches.jump [.label target]) fun _ =>
      ⟨R, l, P⟩ := by
  have hkind : Instr.kind ⟨s.target.arch.branches.jump, [.label target]⟩ = .jump := by
    cases s.target.arch <;> rfl
  refine balanced_emitInstr (k := ⟨R, .base, P⟩) (fun _ => ⟨target, rfl, .inl ht⟩)
    (by simp [Instr.CallsOnly, hkind])
    fun Γ hΓ _ => ?_
  simp only [Fits, hkind]
  exact hΓ target ht

/-- **Leaving the instruction for an anchor.** -/
theorem neutral_jump {target : String} (ht : s.Names target) : Neutral s (jump target) :=
  fun R P => (neutral_settleAll R P).bind fun _ => balanced_restoreAll.bind fun _ =>
    .arch (balanced_emitJump ht _)

/-- The opposite of a branch is a branch. -/
theorem opposite_mem_branchOps {m : Arch} {op inverse : String} (hop : op ∈ branchOps)
    (h : m.branches.opposites.lookup op = some inverse) : inverse ∈ branchOps := by
  have hall : ∀ o ∈ branchOps, ∀ o' ∈ m.branches.opposites.lookup o, o' ∈ branchOps := by
    cases m <;> decide
  exact hall op hop inverse h

/-- **Leaving the instruction on a condition.** The restores are gone around if the branch is not
taken. -/
theorem neutral_branch {op target : String} (hop : op ∈ branchOps) (ht : s.Names target) :
    Neutral s (branch op target) := by
  intro R P
  refine (neutral_settleAll R P).bind fun _ => .draft fun d hd => ?_
  have hd : d.reserved = R := hd
  split
  · refine .arch ?_
    dsimp only
    split
    · exact .throw rfl
    · rename_i inverse hinverse
      refine (balanced_freshLabel (.of R)).bind fun skip => ?_
      refine (balanced_branchLocal (opposite_mem_branchOps hop hinverse) (.head _)).bind fun _ => ?_
      refine Balanced.bind (balanced_restoreAll (P := (skip, .of R) :: P)) fun _ => ?_
      refine (balanced_emitJump ht (.of R)).bind fun _ => ?_
      exact balanced_label (k := .of R P) skip
  · rename_i hsaves
    have hlevel : Level.of R = .base := by
      refine Level.of_eq_base ?_
      rwa [Draft.hasSaves, Bool.not_eq_true, hd] at hsaves
    have hkind : Instr.kind ⟨op, [.label target]⟩ = .branch := by simp [Instr.kind, hop]
    refine balanced_emitInstr (k := .of R P) (fun _ => ⟨target, rfl, .inl ht⟩)
      (by simp [Instr.CallsOnly, hkind])
      fun Γ hΓ _ => ?_
    simp only [Fits, hkind]
    exact ⟨(hΓ target ht).trans hlevel.symm, rfl⟩

end Build

end Octet
