import Octet.Compile
import Octet.Proofs.Balance.Level
import Octet.Proofs.Listing

/-!
# Building balanced code

Code is built by computations that append lines, take registers and give them back, and generate
labels. A *stage* is what has to be balanced along the way: the reservations that are open, the
level that the machine is at, and the labels that are generated and not placed yet, each with the
level that it stands for. A computation is *balanced* between two stages if it either faults for
some other reason than a reservation released out of order or never, or succeeds and

* leaves the reservations of the second stage open, each with code that brings the stack back, and
* has appended lines that lead from the level of the first stage to the level of the second one.

The level of a reservation is read off the code that restores what it saved, so that the
reservations that are open tell the level at which all code is built, apart from code with a wide
accumulator and from the restores themselves.

The labels that a computation generates are numbered on from those of the ledger. The levels that
they stand for are therefore chosen by the computation, while those of all other labels are given.

## Main definitions

* `Reservation.height`, `Reservation.Sound` — what a reservation has pushed, and that it is brought
  back
* `Stage`, `Build.Balanced` — stages, and computations between them
* `Build.Plain`, `Build.Neutral` — computations that keep every stage, and those that keep a level
  read off the open reservations

## Main results

* `Build.Balanced.bind` — composition
* `Build.balanced_emitInstr`, `Build.balanced_emitAll`, `Build.plain_emit` — emitting instructions
* `Build.balanced_freshLabel`, `Build.balanced_label` — generating a label and placing it
-/

namespace Octet

open Assembly

/-- A reservation was released out of order, or was not released. -/
def Fault.isUnbalanced : Fault → Bool
  | .releaseOrder .. => true
  | .openReservations .. => true
  | _ => false

/-- Whatever fault is raised, it is not about reservations. -/
def Harmless {α : Type} (x : Except Fault α) : Prop := ∀ e, x = .error e → e.isUnbalanced = false

section Harmless

variable {α β : Type}

theorem harmless_ok (a : α) : Harmless (.ok a) := by
  rintro e ⟨⟩

theorem harmless_error {e : Fault} (h : e.isUnbalanced = false) :
    Harmless (.error e : Except Fault α) := by
  rintro _ ⟨⟩
  exact h

theorem Harmless.bind {x : Except Fault α} {f : α → Except Fault β} (hx : Harmless x)
    (hf : ∀ a, Harmless (f a)) : Harmless (x >>= f) := by
  cases x with
  | error e => exact harmless_error (hx e rfl)
  | ok a => exact hf a

end Harmless

/-! ### Reservations -/

/-- How many bytes the code that restores what was saved takes from the stack. -/
def restoreHeight (restore : Option (List Instr)) : Int :=
  match Level.base.through? (restore.getD []) with
  | some l => -l.depth
  | none => 0

/-- The code that restores what was saved takes its bytes from the stack, with a narrow accumulator
before and after. -/
def RestoreSound (restore : Option (List Instr)) : Prop :=
  Level.through? ⟨restoreHeight restore, false⟩ (restore.getD []) = some .base

namespace Reservation

/-- How many bytes a reservation has pushed. -/
def height (res : Reservation) : Int := restoreHeight res.restore

/-- What a reservation has pushed is brought back. -/
def Sound (res : Reservation) : Prop := RestoreSound res.restore

end Reservation

/-- The level at which some reservations are open. -/
def Level.of (reserved : List Reservation) : Level := ⟨(reserved.map (·.height)).sum, false⟩

theorem restoreSound_none : RestoreSound none := rfl

/-- Restoring what was pushed is sound. -/
theorem restoreSound_of_through {n : Int} {code : List Instr}
    (h : Level.through? ⟨n, false⟩ code = some .base) :
    RestoreSound (some code) ∧ restoreHeight (some code) = n := by
  have hbase : Level.base.through? code = some ⟨-n, false⟩ := by
    have hgrow : Level.base = Level.grow ⟨n, false⟩ (-n) := by simp [Level.base, Level.grow]
    rw [hgrow, Level.through?_grow, h]
    simp [Level.base, Level.grow]
  have hheight : restoreHeight (some code) = n := by simp [restoreHeight, hbase]
  exact ⟨by rwa [RestoreSound, hheight], hheight⟩

theorem Level.of_cons (res : Reservation) (R : List Reservation) :
    Level.of (res :: R) = (Level.of R).grow res.height := by
  simp [Level.of, Level.grow, Int.add_comm]

/-- Restoring what a reservation saved leads to the level without it. -/
theorem Reservation.Sound.through {res : Reservation} (h : res.Sound) (R : List Reservation) :
    (Level.of (res :: R)).through? (res.restore.getD []) = some (.of R) := by
  have hgrow : Level.of (res :: R) = Level.grow ⟨res.height, false⟩ (Level.of R).depth := by
    simp [Level.of, Level.grow]
  rw [hgrow, Level.through?_grow, show Level.through? ⟨res.height, false⟩ _ = _ from h]
  simp [Level.base, Level.grow, Level.of]

/-- Restoring everything leads back to the level at which the function was entered. -/
theorem Level.through?_restores {R : List Reservation} (h : ∀ res ∈ R, res.Sound) :
    (Level.of R).through? (R.flatMap fun res => res.restore.getD []) = some .base := by
  induction R with
  | nil => rfl
  | cons res R ih =>
    rw [List.flatMap_cons, through?_append, (h res (.head _)).through R]
    exact ih fun r hr => h r (.tail _ hr)

/-- Without saves the level is the one at which the function was entered. -/
theorem Level.of_eq_base {R : List Reservation} (h : R.any (·.restore.isSome) = false) :
    Level.of R = .base := by
  induction R with
  | nil => rfl
  | cons res R ih =>
    simp only [List.any_cons, Bool.or_eq_false_iff, Option.isSome_eq_false_iff,
      Option.isNone_iff_eq_none] at h
    rw [of_cons, ih h.2, Reservation.height, h.1]
    rfl

/-! ### Stages -/

/-- A label that is generated. -/
def generatedLabel (n : Nat) : String := "_L" ++ toString n

/-- The labels that are generated after some number of them, up to another one. -/
def generatedLabels (n n' : Nat) : List String := (List.range' (n + 1) (n' - n)).map generatedLabel

theorem generatedLabels_self (n : Nat) : generatedLabels n n = [] := by simp [generatedLabels]

theorem generatedLabels_succ (n : Nat) : generatedLabels n (n + 1) = [generatedLabel (n + 1)] := by
  simp [generatedLabels]

theorem generatedLabels_append {n n' n'' : Nat} (h : n ≤ n') (h' : n' ≤ n'') :
    generatedLabels n n' ++ generatedLabels n' n'' = generatedLabels n n'' := by
  have hstart : n' + 1 = n + 1 + (n' - n) := by omega
  have hlength : n'' - n = n' - n + (n'' - n') := by omega
  rw [generatedLabels, generatedLabels, generatedLabels, ← List.map_append, hstart,
    List.range'_append_1, hlength]

/-- The label that a line places. -/
def Assembly.Line.label? : Line → Option String
  | label name => some name
  | _ => none

/-- An instruction that may send control to a label does so to one that satisfies `P`. -/
def Assembly.Instr.GoesTo (P : String → Prop) (i : Instr) : Prop :=
  i.kind = .branch ∨ i.kind = .jump → ∃ name, i.args = [.label name] ∧ P name

theorem Assembly.Instr.GoesTo.mono {P Q : String → Prop} {i : Instr} (h : i.GoesTo P)
    (hPQ : ∀ name, P name → Q name) :
    i.GoesTo Q := by
  intro hkind
  obtain ⟨name, hargs, hP⟩ := h hkind
  exact ⟨name, hargs, hPQ name hP⟩

/-- An instruction that calls something calls something that satisfies `P`. -/
def Assembly.Instr.CallsOnly (P : String → Prop) (i : Instr) : Prop :=
  i.kind = .call → ∃ name, i.args = [.label name] ∧ P name

/-- Where the building of code stands. -/
structure Stage where
  /-- The open reservations, the last one first. -/
  reserved : List Reservation
  level : Level
  /-- The labels that are generated and not placed, with the levels that they stand for. -/
  awaited : List (String × Level)

namespace Stage

/-- The stage at which some reservations are open and the machine is at their level. -/
def of (reserved : List Reservation) (awaited : List (String × Level)) : Stage :=
  ⟨reserved, .of reserved, awaited⟩

/-- The stage at another level. -/
def atLevel (k : Stage) (l : Level) : Stage := { k with level := l }

/-- The stage with one more label that stands for a level. -/
def await (k : Stage) (l : Level) (name : String) : Stage :=
  { k with awaited := (name, l) :: k.awaited }

/-- The labels that are awaited. -/
def names (k : Stage) : List String := k.awaited.map (·.1)

end Stage

/-- The instruction of the site places or goes to an anchor of this name. -/
def Site.Names (s : Site) (name : String) : Prop :=
  ∃ a, s.inst.bind (·.anchor?) = some a ∧ a.name = name

/-- An operand is as wide as its type. -/
theorem Operand.width_located (o : Operand) (ρ : Assignment) :
    (o.located ρ).width = o.type.byteCount := by
  cases o with
  | var v offset t =>
    simp only [located]
    split
    · rfl
    · split <;> rfl
  | _ => rfl

/-- **What an instruction may call**: its callee, or the runtime routine for its operator and width.
A shift by a constant calls none, and neither does a multiplication by a power of two. -/
def Inst.Calls (m : Arch) (i : Inst) (name : String) : Prop :=
  match i with
  | .call callee _ _ => name = callee.name
  | .binary .shl d _ r =>
    r.isConstant = false ∧ name = m.routine (Build.shiftRoutine true false) d.type.byteCount
  | .binary .shr d l r =>
    r.isConstant = false ∧ name = m.routine (Build.shiftRoutine false l.type.signed)
      d.type.byteCount
  | .binary .mul d l r =>
    l.isPowerOfTwo = false ∧ r.isPowerOfTwo = false ∧ name = m.routine "Multiply" d.type.byteCount
  | .compare .. => m = .i8080 ∧ (name = "cate.CompareHlDe" ∨ name = "cate.CompareHlDeSigned")
  | _ => False

/-- The instruction of the site may call a routine of this name. -/
def Site.Calls (s : Site) (name : String) : Prop :=
  ∃ i, s.inst = some i ∧ i.Calls s.target.arch name

/-- Labels stand for the levels that are given: anchors for the level at which functions are
entered, those awaited for what is awaited, and those generated between two numbers for what was
chosen. -/
structure Labelling.Suits (Γ : Labelling) (s : Site) (awaited : List (String × Level))
    (γ : Nat → Level) (n n' : Nat) : Prop where
  anchors : ∀ name, s.Names name → Γ name = .base
  awaited : ∀ p ∈ awaited, Γ p.1 = p.2
  generated : ∀ i, n < i → i ≤ n' → Γ (generatedLabel i) = γ i

/-- **What lines do with labels** between two stages: a label that was awaited or is generated is
placed once or is awaited still, and control is sent to such labels and to anchors only, or to what
the instruction may call. -/
structure Places (s : Site) (k k' : Stage) (n n' : Nat) (ls : List Line) : Prop where
  placed : (k.names ++ generatedLabels n n').Perm (ls.filterMap Line.label? ++ k'.names)
  goals : ∀ i, Line.instr i ∈ ls →
    i.GoesTo fun name => s.Names name ∨ name ∈ k.names ++ generatedLabels n n'
  calls : ∀ i, Line.instr i ∈ ls → i.CallsOnly s.Calls

namespace Places

variable {s : Site} {k k' k'' : Stage} {n n' n'' : Nat} {ls ks : List Line}

theorem nil (h : k'.names = k.names) : Places s k k' n n [] := by
  refine ⟨?_, by simp, by simp⟩
  simp [generatedLabels_self, h]

theorem trans (h : Places s k k' n n' ls) (h' : Places s k' k'' n' n'' ks) (hle : n ≤ n')
    (hle' : n' ≤ n'') :
    Places s k k'' n n'' (ls ++ ks) := by
  have hsplit := generatedLabels_append hle hle'
  refine ⟨?_, ?_, fun i hi => (List.mem_append.mp hi).elim (h.calls i) (h'.calls i)⟩
  · calc
      (k.names ++ generatedLabels n n'').Perm
        ((k.names ++ generatedLabels n n') ++ generatedLabels n' n'') := by
        rw [← hsplit, List.append_assoc]
      _ |>.Perm ((ls.filterMap Line.label? ++ k'.names) ++ generatedLabels n' n'') :=
        h.placed.append_right _
      _ |>.Perm (ls.filterMap Line.label? ++ (ks.filterMap Line.label? ++ k''.names)) := by
        rw [List.append_assoc]
        exact h'.placed.append_left _
      _ |>.Perm ((ls ++ ks).filterMap Line.label? ++ k''.names) := by
        rw [List.filterMap_append, List.append_assoc]
  · intro i hi
    have hmem : ∀ name, name ∈ k.names ++ generatedLabels n n'' ↔
        name ∈ k.names ++ generatedLabels n n' ∨ name ∈ generatedLabels n' n'' := by
      intro name
      rw [← hsplit, ← List.append_assoc, List.mem_append]
    rcases List.mem_append.mp hi with hi | hi
    · refine (h.goals i hi).mono fun name hname => hname.imp_right fun hname => ?_
      exact (hmem name).mpr (.inl hname)
    · refine (h'.goals i hi).mono fun name hname => hname.imp_right fun hname => ?_
      rcases List.mem_append.mp hname with hname | hname
      · exact (hmem name).mpr (.inl (h.placed.mem_iff.mpr (List.mem_append_right _ hname)))
      · exact (hmem name).mpr (.inr hname)

/-- An instruction places no label. -/
theorem single {i : Instr} (hgoal : i.GoesTo fun name => s.Names name ∨ name ∈ k.names)
    (hcall : i.CallsOnly s.Calls) (h : k'.names = k.names) : Places s k k' n n [.instr i] := by
  refine ⟨?_, fun j hj => ?_, fun j hj => ?_⟩
  · rw [generatedLabels_self, List.append_nil, h]
    exact .refl _
  · obtain rfl : j = i := by simpa using hj
    exact hgoal.mono fun name hname => hname.imp_right (List.mem_append_left _)
  · obtain rfl : j = i := by simpa using hj
    exact hcall

end Places

/-- **What a balanced computation has done** between two stages. -/
structure Advances (s : Site) (k k' : Stage) (w w' : Work) : Prop where
  reserved : w'.draft.reserved = k'.reserved
  sound : ∀ res ∈ k'.reserved, res.Sound
  labels : w.ledger.labels ≤ w'.ledger.labels
  lines : ∃ ls, w'.draft.lines = w.draft.lines ++ ls ∧
    Places s k k' w.ledger.labels w'.ledger.labels ls ∧
    ∃ γ : Nat → Level, ∀ Γ : Labelling, Γ.Suits s k.awaited γ w.ledger.labels w'.ledger.labels →
      Leads Γ k.level ls k'.level ∧ ∀ p ∈ k'.awaited, Γ p.1 = p.2

/-- Nothing was done. -/
theorem Advances.refl {s : Site} {k : Stage} {w : Work} (h : w.draft.reserved = k.reserved)
    (hs : ∀ res ∈ k.reserved, res.Sound) : Advances s k k w w :=
  ⟨h, hs, Nat.le_refl _, [], (List.append_nil _).symm, .nil rfl, fun _ => .base, fun _ hΓ =>
    ⟨rfl, hΓ.awaited⟩⟩

/-- **One thing after the other.** The labels that the first computation generates come before those
of the second one, so that their levels are chosen independently. -/
theorem Advances.trans {s : Site} {k k' k'' : Stage} {w w' w'' : Work} (h : Advances s k k' w w')
    (h' : Advances s k' k'' w' w'') : Advances s k k'' w w'' := by
  obtain ⟨ls, hls, hplaces, γ, hγ⟩ := h.lines
  obtain ⟨ks, hks, hplaces', δ, hδ⟩ := h'.lines
  have hle := h.labels
  have hle' := h'.labels
  refine ⟨h'.reserved, h'.sound, hle.trans hle', ls ++ ks, ?_, hplaces.trans hplaces' hle hle',
    fun i => if i ≤ w'.ledger.labels then γ i else δ i, ?_⟩
  · rw [hks, hls, List.append_assoc]
  · intro Γ hΓ
    obtain ⟨hleads, hawaited⟩ := hγ Γ
      ⟨hΓ.anchors, hΓ.awaited,
        fun i hi hi' => by rw [hΓ.generated i hi (hi'.trans hle'), if_pos hi']⟩
    obtain ⟨hleads', hawaited'⟩ := hδ Γ
      ⟨hΓ.anchors, hawaited,
        fun i hi hi' => by rw [hΓ.generated i (hle.trans_lt hi) hi', if_neg (by omega)]⟩
    exact ⟨hleads.append hleads', hawaited'⟩

theorem Site.run_bind {α β : Type} {s : Site} {b : Build α} {f : α → Build β} {w w' : Work} {a : α}
    (h : s.run b w = (.ok a, w')) : s.run (b >>= f) w = s.run (f a) w' := by
  change (ExceptT.bindCont (fun a => f a s) (s.run b w).1).run (s.run b w).2 = _
  rw [h]
  rfl

namespace Build

variable {α β : Type} {s : Site} {k : Stage} {R : List Reservation} {P : List (String × Level)}
  {b : Build α} {f : α → Build β} {Q : α → Stage} {Q' : β → Stage}

/-- How a computation ends: it has advanced to the stage of its result, or faulted for another
reason than its reservations. -/
def Ends (s : Site) (k : Stage) (Q : α → Stage) (w : Work) : Except Fault α × Work → Prop
  | (.ok a, w') => Advances s k (Q a) w w'
  | (.error e, _) => e.isUnbalanced = false

/-- **A balanced computation** from a stage to the stage of its result. -/
def Balanced (s : Site) (k : Stage) (b : Build α) (Q : α → Stage) : Prop :=
  ∀ w : Work, w.draft.reserved = k.reserved → (∀ res ∈ k.reserved, res.Sound) →
    Ends s k Q w (s.run b w)

/-- A computation that keeps every stage. -/
def Plain (s : Site) (b : Build α) : Prop := ∀ k, Balanced s k b fun _ => k

/-- **A computation that leaves the open reservations and their level as they are.** -/
def Neutral (s : Site) (b : Build α) : Prop := ∀ R P, Balanced s (.of R P) b fun _ => .of R P

/-! ### Composition -/

/-- A computation after another one runs from where that one ended, or shares its fault. -/
theorem run_bind_cases (s : Site) (b : Build α) (f : α → Build β) (w : Work) :
    (∃ a w', s.run b w = (.ok a, w') ∧ s.run (b >>= f) w = s.run (f a) w') ∨
      ∃ e w', s.run b w = (.error e, w') ∧ s.run (b >>= f) w = (.error e, w') := by
  have hbind : s.run (b >>= f) w = (ExceptT.bindCont (fun a => f a s) (s.run b w).1).run
      (s.run b w).2 := rfl
  rcases hrun : s.run b w with ⟨e | a, w'⟩
  · exact .inr ⟨e, w', rfl, by rw [hbind, hrun]; rfl⟩
  · exact .inl ⟨a, w', rfl, Site.run_bind hrun⟩

theorem Balanced.pure (a : α) (h : Q a = k) : Balanced s k (Pure.pure a) Q := by
  intro w hw hs
  change Advances s k (Q a) w w
  rw [h]
  exact .refl hw hs

theorem Ends.after {k' : Stage} {w w' : Work} {x : Except Fault α × Work} (h : Ends s k' Q w' x)
    (hadv : Advances s k k' w w') : Ends s k Q w x := by
  rcases x with ⟨e | a, w''⟩
  · exact h
  · exact hadv.trans h

/-- **Composition.** -/
theorem Balanced.bind (hb : Balanced s k b Q) (hf : ∀ a, Balanced s (Q a) (f a) Q') :
    Balanced s k (b >>= f) Q' := by
  intro w hw hs
  have hends := hb w hw hs
  rcases run_bind_cases s b f w with ⟨a, w', hrun, hbind⟩ | ⟨e, w', hrun, hbind⟩
  · rw [hrun] at hends
    rw [hbind]
    have hadv : Advances s k (Q a) w w' := hends
    exact (hf a w' hadv.reserved hadv.sound).after hadv
  · rw [hrun] at hends
    rw [hbind]
    exact hends

theorem Balanced.map {g : α → β} (hb : Balanced s k b fun a => Q' (g a)) :
    Balanced s k (g <$> b) Q' := by
  rw [← bind_pure_comp]
  exact hb.bind fun a => .pure _ rfl

theorem Balanced.throw {e : Fault} (h : e.isUnbalanced = false) :
    Balanced s k (throw e : Build α) Q :=
  fun _ _ _ => h

theorem Balanced.ite {c : Prop} [Decidable c] {b' : Build α} (hb : Balanced s k b Q)
    (hb' : Balanced s k b' Q) : Balanced s k (if c then b else b') Q := by
  split
  · exact hb
  · exact hb'

/-- Computing a value in one of two ways before going on. -/
theorem Balanced.ite_bind {c : Prop} [Decidable c] {b' : Build α} (hb : Balanced s k b Q)
    (hb' : Balanced s k b' Q) (hf : ∀ a, Balanced s (Q a) (f a) Q') :
    Balanced s k (if c then b >>= f else b' >>= f) Q' :=
  .ite (hb.bind hf) (hb'.bind hf)

/-- Doing something on a condition before going on. -/
theorem Balanced.unless {c : Prop} [Decidable c] {b : Build Unit} {f : Unit → Build β}
    (hb : Balanced s k b fun _ => k) (hf : Balanced s k (f ()) Q') :
    Balanced s k (if c then f () else b >>= f) Q' :=
  .ite hf (hb.bind fun _ => hf)

theorem Balanced.when {c : Prop} [Decidable c] {b : Build Unit} {f : Unit → Build β}
    (hb : Balanced s k b fun _ => k) (hf : Balanced s k (f ()) Q') :
    Balanced s k (if c then b >>= f else f ()) Q' :=
  .ite (hb.bind fun _ => hf) hf

/-- The reservations that are open are sound. -/
theorem Balanced.of_sound (h : (∀ res ∈ k.reserved, res.Sound) → Balanced s k b Q) :
    Balanced s k b Q :=
  fun w hw hs => h hs w hw hs

/-- A computation that only looks at the work. -/
theorem Balanced.observes {g : Work → α} (hrun : ∀ w, s.run b w = (.ok (g w), w))
    (h : ∀ w, w.draft.reserved = k.reserved → Balanced s k (f (g w)) Q') :
    Balanced s k (b >>= f) Q' := by
  intro w hw hs
  rw [Site.run_bind (hrun w)]
  exact h w hw w hw hs

/-- A computation that only looks at where code is built. -/
theorem Balanced.reads {a : α} (hrun : ∀ w, s.run b w = (.ok a, w)) (h : Balanced s k (f a) Q') :
    Balanced s k (b >>= f) Q' :=
  .observes hrun fun _ _ => h

theorem Balanced.read {f : Site → Build β} (h : Balanced s k (f s) Q') :
    Balanced s k (MonadReader.read >>= f) Q' :=
  .reads (fun _ => rfl) h

theorem Balanced.arch {f : Arch → Build β} (h : Balanced s k (f s.target.arch) Q') :
    Balanced s k (Build.arch >>= f) Q' :=
  .reads (fun _ => rfl) h

theorem Balanced.accumulator {f : Register → Build β}
    (h : Balanced s k (f s.target.arch.accumulator) Q') :
    Balanced s k (Build.accumulator >>= f) Q' :=
  .reads (fun _ => rfl) h

theorem Balanced.draft {f : Draft → Build β} (h : ∀ d : Draft, d.reserved = k.reserved →
    Balanced s k (f d) Q') :
    Balanced s k (Build.draft >>= f) Q' :=
  .observes (fun _ => rfl) fun w => h w.draft

/-! ### Plain and neutral computations -/

theorem Plain.neutral (h : Plain s b) : Neutral s b := fun R P => h (.of R P)

theorem Plain.pure (a : α) : Plain s (Pure.pure a) := fun _ => .pure a rfl

theorem Neutral.pure (a : α) : Neutral s (Pure.pure a) := fun _ _ => .pure a rfl

theorem Plain.bind (hb : Plain s b) (hf : ∀ a, Plain s (f a)) : Plain s (b >>= f) :=
  fun k => (hb k).bind fun a => hf a k

theorem Neutral.bind (hb : Neutral s b) (hf : ∀ a, Neutral s (f a)) : Neutral s (b >>= f) :=
  fun R P => (hb R P).bind fun a => hf a R P

theorem Plain.throw {e : Fault} (h : e.isUnbalanced = false) : Plain s (throw e : Build α) :=
  fun _ => .throw h

theorem Neutral.throw {e : Fault} (h : e.isUnbalanced = false) : Neutral s (throw e : Build α) :=
  fun _ _ => .throw h

theorem Neutral.ite {c : Prop} [Decidable c] {b' : Build α} (h : Neutral s b) (h' : Neutral s b') :
    Neutral s (if c then b else b') := fun R P => .ite (h R P) (h' R P)

theorem Plain.ite {c : Prop} [Decidable c] {b' : Build α} (h : Plain s b) (h' : Plain s b') :
    Plain s (if c then b else b') := fun k => .ite (h k) (h' k)

theorem Neutral.when {c : Prop} [Decidable c] {b : Build Unit} {f : Unit → Build β}
    (hb : Neutral s b) (hf : Neutral s (f ())) : Neutral s (if c then b >>= f else f ()) :=
  fun R P => .when (hb R P) (hf R P)

theorem Plain.discard (h : Plain s b) : Plain s (discard b) := fun k => .map (h k)

theorem Neutral.discard (h : Neutral s b) : Neutral s (discard b) := fun R P => .map (h R P)

theorem Plain.forM {xs : List β} {f : β → Build PUnit} (h : ∀ x ∈ xs, Plain s (f x)) :
    Plain s (xs.forM f) := by
  induction xs with
  | nil => exact .pure ()
  | cons x xs ih => exact (h x (.head _)).bind fun _ => ih fun y hy => h y (.tail _ hy)

theorem Neutral.forM {xs : List β} {f : β → Build PUnit} (h : ∀ x ∈ xs, Neutral s (f x)) :
    Neutral s (xs.forM f) := by
  induction xs with
  | nil => exact .pure ()
  | cons x xs ih => exact (h x (.head _)).bind fun _ => ih fun y hy => h y (.tail _ hy)

theorem plain_of_observes {g : Work → α} (hrun : ∀ w, s.run b w = (.ok (g w), w)) : Plain s b := by
  intro k w hw hs
  rw [hrun]
  exact .refl hw hs

/-- A change of the work that concerns neither lines nor reservations nor labels. -/
theorem balanced_of_changes {a : α} (g : Work → Work) (hrun : ∀ w, s.run b w = (.ok a, g w))
    (hreserved : ∀ w, (g w).draft.reserved = w.draft.reserved)
    (hlines : ∀ w, (g w).draft.lines = w.draft.lines)
    (hlabels : ∀ w, (g w).ledger.labels = w.ledger.labels) : Balanced s k b fun _ => k := by
  intro w hw hs
  rw [hrun]
  exact ⟨(hreserved w).trans hw, hs, Nat.le_of_eq (hlabels w).symm, [],
    by rw [hlines, List.append_nil],
    by rw [hlabels]; exact .nil rfl, fun _ => .base, fun _ hΓ => ⟨rfl, hΓ.awaited⟩⟩

theorem balanced_modifyDraft {g : Draft → Draft} (hreserved : ∀ d, (g d).reserved = d.reserved)
    (hlines : ∀ d, (g d).lines = d.lines) : Balanced s k (modifyDraft g) fun _ => k :=
  balanced_of_changes (fun w => { w with draft := g w.draft }) (fun _ => rfl)
    (fun w => hreserved w.draft) (fun w => hlines w.draft) fun _ => rfl

theorem balanced_modifyLedger {g : Ledger → Ledger} (h : ∀ l, (g l).labels = l.labels) :
    Balanced s k (modifyLedger g) fun _ => k :=
  balanced_of_changes (fun w => { w with ledger := g w.ledger }) (fun _ => rfl) (fun _ => rfl)
    (fun _ => rfl)
    fun w => h w.ledger

theorem plain_ofExcept {x : Except Fault α} (h : Harmless x) : Plain s (ofExcept x) := by
  cases x with
  | ok a => exact .pure a
  | error e => exact .throw (h e rfl)

theorem plain_present {o : Option α} : Plain s (present o) := by
  cases o with
  | none => exact .throw rfl
  | some a => exact .pure a

theorem plain_nameOf (r : Option Register) : Plain s (nameOf r) :=
  plain_present.bind fun _ => .pure _

theorem plain_byteOf {l : Location} {i : Int} : Plain s (byteOf l i) := plain_present

theorem plain_argOf {l : Location} : Plain s (argOf l) := by
  refine plain_ofExcept ?_
  unfold Location.arg
  split
  case h_5 => exact harmless_error rfl
  case h_6 => exact harmless_error rfl
  case h_7 => exact harmless_error rfl
  all_goals exact harmless_ok _

/-! ### Records -/

theorem plain_known? {r : Option Register} : Plain s (known? r) := plain_of_observes fun _ => rfl

theorem plain_inUse (r : Register) : Plain s (inUse r) := plain_of_observes fun _ => rfl

theorem plain_flagsShow {l : Location} : Plain s (flagsShow l) := plain_of_observes fun _ => rfl

theorem plain_setKnown (r : Register) (v : Int) : Plain s (setKnown r v) :=
  .ite (.pure ()) fun _ => balanced_modifyDraft (fun _ => rfl) fun _ => rfl

theorem plain_flagsAlso {l : Location} : Plain s (flagsAlso l) := by
  refine fun _ => balanced_modifyDraft (fun d => ?_) fun d => ?_
  · dsimp only
    split <;> rfl
  · dsimp only
    split <;> rfl

theorem plain_flagsFrom {l : Location} : Plain s (flagsFrom l) :=
  fun _ => balanced_modifyDraft (fun _ => rfl) fun _ => rfl

theorem plain_forget {l : Location} : Plain s (forget l) :=
  fun _ => balanced_modifyDraft (fun _ => rfl) fun _ => rfl

theorem plain_written {l : Location} : Plain s (written l) :=
  plain_forget.bind fun _ _ => balanced_modifyDraft (fun _ => rfl) fun _ => rfl

theorem labels_reserve (l : Ledger) (name : String) (size : Int) (segment : Segment) :
    (l.reserve name size segment).labels = l.labels := by
  unfold Ledger.reserve
  split <;> rfl

theorem labels_reference (l : Ledger) (name : String) : (l.reference name).labels = l.labels := by
  unfold Ledger.reference
  split <;> rfl

theorem plain_scratchCell (name : String) : Plain s (scratchCell name) :=
  fun _ => .arch (balanced_modifyLedger fun l => labels_reserve l ..)

theorem plain_temporary (width : Int) : Plain s (temporary width) := by
  refine fun k => .draft fun d _ => (plain_scratchCell _ k).bind fun _ => ?_
  exact .bind (balanced_modifyDraft (fun _ => rfl) fun _ => rfl) fun _ => .pure _ rfl

theorem plain_saveCell : Plain s saveCell := by
  refine fun k => .draft fun d _ => (plain_scratchCell _ k).bind fun _ => ?_
  exact .bind (balanced_modifyDraft (fun _ => rfl) fun _ => rfl) fun _ => .pure _ rfl

/-! ### Lines -/

theorem write_lines_reserved (d : Draft) (r : Option Register) :
    (d.write r).lines = d.lines ∧ (d.write r).reserved = d.reserved := by
  cases r <;> exact ⟨rfl, rfl⟩

theorem apply_lines_reserved (d : Draft) (e : Effect) :
    (d.apply e).lines = d.lines ∧ (d.apply e).reserved = d.reserved := by
  have hwrites : (e.writes.foldl Draft.write d).lines = d.lines ∧
      (e.writes.foldl Draft.write d).reserved = d.reserved := by
    induction e.writes generalizing d with
    | nil => exact ⟨rfl, rfl⟩
    | cons r rs ih =>
      obtain ⟨hl, hr⟩ := write_lines_reserved d r
      obtain ⟨hl', hr'⟩ := ih (d.write r)
      exact ⟨hl'.trans hl, hr'.trans hr⟩
  unfold Draft.apply
  dsimp only
  split
  · exact hwrites
  · split
    · exact hwrites
    · exact hwrites

/-- Appending an instruction. -/
theorem balanced_append {i : Instr} {l : Level} (hgoal : i.GoesTo fun name => s.Names name ∨
    name ∈ k.names)
    (hcall : i.CallsOnly s.Calls) (h : ∀ Γ : Labelling, (∀ name, s.Names name → Γ name = .base) →
      (∀ p ∈ k.awaited, Γ p.1 = p.2) →
      Fits Γ k.level (.instr i) l) : Balanced s k (modifyDraft (·.append (.instr i))) fun _ =>
        k.atLevel l := by
  intro w hw hs
  exact ⟨hw, hs, Nat.le_refl _, [.instr i], rfl, .single hgoal hcall rfl, fun _ => .base,
    fun Γ hΓ => ⟨.single (h Γ hΓ.anchors hΓ.awaited), hΓ.awaited⟩⟩

/-- **Emitting an instruction** that fits the level. -/
theorem balanced_emitInstr {i : Instr} {l : Level}
    (hgoal : i.GoesTo fun name => s.Names name ∨ name ∈ k.names)
    (hcall : i.CallsOnly s.Calls) (h : ∀ Γ : Labelling, (∀ name, s.Names name → Γ name = .base) →
      (∀ p ∈ k.awaited, Γ p.1 = p.2) →
      Fits Γ k.level (.instr i) l) : Balanced s k (emitInstr i) fun _ => k.atLevel l := by
  refine (balanced_append hgoal hcall h).bind fun _ => .arch ?_
  split
  · exact balanced_modifyDraft (fun d => (apply_lines_reserved d _).2) fun d =>
      (apply_lines_reserved d _).1
  · exact .throw rfl

/-- Emitting a straight instruction. -/
theorem balanced_emitStraight {i : Instr} {l : Level} (h : k.level.after? i = some l) :
    Balanced s k (emitInstr i) fun _ => k.atLevel l := by
  have hkind : i.kind = .straight := by
    by_contra hne
    simp [Level.after?, hne] at h
  refine balanced_emitInstr (by simp [Instr.GoesTo, hkind]) (by simp [Instr.CallsOnly, hkind])
    fun Γ _ _ => ?_
  obtain ⟨l', hfits, rfl⟩ := Leads.of_after (Γ := Γ) h
  exact hfits

/-- **Emitting straight code.** -/
theorem balanced_emitAll {is : List Instr} {l : Level} (h : k.level.through? is = some l) :
    Balanced s k (emitAll is) fun _ => k.atLevel l := by
  induction is generalizing k with
  | nil =>
    cases h
    exact .pure () rfl
  | cons i is ih =>
    rw [Level.through?_cons] at h
    obtain ⟨l', hi, his⟩ := Option.bind_eq_some_iff.mp h
    exact (balanced_emitStraight hi).bind fun _ => ih his

/-- Straight code that takes every level back to where it was. -/
theorem plain_emitAll {is : List Instr} (h : ∀ l : Level, l.through? is = some l) :
    Plain s (emitAll is) :=
  fun k => balanced_emitAll (h k.level)

/-- Straight code that takes a narrow accumulator and the stack back to where they were. -/
theorem neutral_emitAll {is : List Instr} (h : Level.base.through? is = some .base) :
    Neutral s (emitAll is) := by
  intro R P
  refine balanced_emitAll (k := .of R P) ?_
  have hgrow : (Stage.of R P).level = Level.base.grow (Level.of R).depth := by
    simp [Stage.of, Level.of, Level.base, Level.grow]
  rw [hgrow, Level.through?_grow, h, Option.map_some, ← hgrow]
  rfl

/-- **Emitting a plain instruction.** -/
theorem plain_emit {op : String} (h : op ∉ specialOps) {args : List Arg} : Plain s (emit op args) :=
  fun k => balanced_emitStraight (Level.after?_of_plain h k.level args)

/-- Branching to a label that is awaited at the level. -/
theorem balanced_branchLocal {op name : String} (hop : op ∈ branchOps)
    (h : (name, k.level) ∈ k.awaited) :
    Balanced s k (branchLocal op name) fun _ => k := by
  have hkind : Instr.kind ⟨op, [.label name]⟩ = .branch := by simp [Instr.kind, hop]
  refine balanced_emitInstr (l := k.level) (fun _ => ⟨name, rfl, .inr (List.mem_map_of_mem h)⟩)
    (by simp [Instr.CallsOnly, hkind]) fun Γ _ hΓ => ?_
  simp only [Fits, hkind]
  exact ⟨hΓ _ h, trivial⟩

/-- Calling a routine that the instruction may call, with a narrow accumulator. -/
theorem balanced_call (h : k.level.wide = false) {name : String} (hc : s.Calls name) :
    Balanced s k (call name) fun _ => k := by
  refine (balanced_modifyLedger fun l => labels_reference l name).bind fun _ => .arch ?_
  have hkind : Instr.kind ⟨s.target.arch.branches.call, [.label name]⟩ = .call := by
    cases s.target.arch <;> rfl
  refine balanced_emitInstr (l := k.level) (by simp [Instr.GoesTo, hkind])
    (fun _ => ⟨name, rfl, hc⟩) fun Γ _ _ => ?_
  simp only [Fits, hkind]
  exact ⟨h, trivial⟩

theorem neutral_call {name : String} (hc : s.Calls name) : Neutral s (call name) :=
  fun R P => balanced_call (k := .of R P) rfl hc

/-! ### Labels -/

/-- **Generating a label** that will stand for a level. -/
theorem balanced_freshLabel (l : Level) : Balanced s k freshLabel (k.await l) := by
  intro w hw hs
  refine ⟨hw, hs, Nat.le_succ _, [], (List.append_nil _).symm, ⟨?_, by simp, by simp⟩, fun _ => l,
    fun Γ hΓ => ⟨rfl, ?_⟩⟩
  · have hlabels : generatedLabels w.ledger.labels (w.ledger.labels + 1) =
        [generatedLabel (w.ledger.labels + 1)] :=
      generatedLabels_succ _
    exact hlabels ▸ List.perm_append_singleton _ _
  · rintro p hp
    rcases List.mem_cons.mp hp with rfl | hp
    · exact hΓ.generated _ (Nat.lt_succ_self _) (Nat.le_refl _)
    · exact hΓ.awaited p hp

/-- A computation that is balanced for some level of an awaited label, which may depend on how it
runs. -/
def Defers (s : Site) (k : Stage) (name : String) (b : Build α) (Q : α → Stage) : Prop :=
  ∀ w : Work, w.draft.reserved = k.reserved → (∀ res ∈ k.reserved, res.Sound) →
    ∃ l, Ends s (k.await l name) Q w (s.run b w)

theorem Defers.of_balanced {name : String} (l : Level) (h : Balanced s (k.await l name) b Q) :
    Defers s k name b Q :=
  fun w hw hs => ⟨l, h w hw hs⟩

/-- What comes before the level is known must be balanced for every level. -/
theorem Defers.bind {name : String} (hb : ∀ l, Balanced s (k.await l name) b fun a =>
    (Q a).await l name)
    (hf : ∀ a, Defers s (Q a) name (f a) Q') : Defers s k name (b >>= f) Q' := by
  intro w hw hs
  have hends := fun l => hb l w hw hs
  rcases run_bind_cases s b f w with ⟨a, w', hrun, hbind⟩ | ⟨e, w', hrun, hbind⟩
  · rw [hrun] at hends
    rw [hbind]
    have hadv : ∀ l, Advances s (k.await l name) ((Q a).await l name) w w' := hends
    obtain ⟨l, hends'⟩ := hf a w' (hadv .base).reserved (hadv .base).sound
    exact ⟨l, hends'.after (hadv l)⟩
  · rw [hrun] at hends
    rw [hbind]
    exact ⟨.base, hends .base⟩

/-- Generating a label whose level is not known yet. -/
theorem Defers.balanced {f : String → Build β} (h : ∀ name, Defers s k name (f name) Q') :
    Balanced s k (freshLabel >>= f) Q' := by
  intro w hw hs
  rcases run_bind_cases s freshLabel f w with ⟨name, w', hrun, hbind⟩ | ⟨e, w', hrun, hbind⟩
  · have hfresh : ∀ l, Ends s k (k.await l) w (s.run freshLabel w) :=
      fun l => balanced_freshLabel l w hw hs
    rw [hrun] at hfresh
    rw [hbind]
    have hadv : ∀ l, Advances s k (k.await l name) w w' := hfresh
    obtain ⟨l, hends⟩ := h name w' (hadv .base).reserved hs
    exact hends.after (hadv l)
  · have hfresh : Ends s k (k.await .base) w (s.run freshLabel w) :=
      balanced_freshLabel .base w hw hs
    rw [hrun] at hfresh
    rw [hbind]
    exact hfresh

/-- **Placing a label** at the level that it stands for. -/
theorem balanced_label (name : String) :
    Balanced s (k.await k.level name) (label name) fun _ => k := by
  intro w hw hs
  refine ⟨hw, hs, Nat.le_refl _, [.label name], rfl, ⟨?_, by simp, by simp⟩, fun _ => .base,
    fun Γ hΓ => ⟨.single ?_, ?_⟩⟩
  · simp [generatedLabels_self, Stage.names, Stage.await, Line.label?]
  · exact ⟨hΓ.awaited _ (.head _), rfl⟩
  · exact fun p hp => hΓ.awaited p (.tail _ hp)

end Build

end Octet
